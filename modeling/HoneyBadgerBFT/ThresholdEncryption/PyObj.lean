import HoneyBadgerBFT.Library.Bytes

/-!
# Objects of an unknown type

`pickle.loads` of bytes from another party gives any Python object.  `PyObj` is such an object as
far as this code looks at it: whether it can be unpacked, its length, and whether the packages take
it for a byte string.
-/

inductive PyObj where
  /-- `bytes` -/
  | bytes (b : Bytes)
  /-- a `bytearray` or another writable buffer -/
  | buffer (b : Bytes)
  /-- a `str`, given by its code points -/
  | str (s : List ℕ)
  /-- another object that has a length and can be unpacked -/
  | seq (xs : List PyObj)
  | other

namespace PyObj

/-- the objects that unpacking gives; `other`: the integers in a byte string -/
def items : PyObj → Option (List PyObj)
  | bytes b => some (b.map fun _ => other)
  | buffer b => some (b.map fun _ => other)
  | str s => some (s.map fun c => str [c])
  | seq xs => some xs
  | other => none

/-- `len(x)` -/
def len (x : PyObj) : Option ℕ := x.items.map List.length

/-- the bytes, where a bytes-like object is asked for -/
def bytesLike : PyObj → Option Bytes
  | bytes b => some b
  | buffer b => some b
  | _ => none

/-- the bytes that the cipher sees: it takes read-only buffers, and a `str` in UTF-8 -/
def readOnly : PyObj → Option Bytes
  | bytes b => some b
  | str s => encodeUtf8 s
  | _ => none

/-- `x[:k]` -/
def front (k : ℕ) : PyObj → PyObj
  | bytes b => bytes (b.take k)
  | buffer b => buffer (b.take k)
  | str s => str (s.take k)
  | seq xs => seq (xs.take k)
  | other => other

/-- `x[k:]` -/
def back (k : ℕ) : PyObj → PyObj
  | bytes b => bytes (b.drop k)
  | buffer b => buffer (b.drop k)
  | str s => str (s.drop k)
  | seq xs => seq (xs.drop k)
  | other => other

theorem len_of_bytesLike {x : PyObj} {b : Bytes} (h : x.bytesLike = some b) :
    x.len = some b.length := by
  cases x with
  | bytes c =>
    obtain rfl := Option.some.inj h
    simp [len, items]
  | buffer c =>
    obtain rfl := Option.some.inj h
    simp [len, items]
  | str s => cases h
  | seq xs => cases h
  | other => cases h

end PyObj
