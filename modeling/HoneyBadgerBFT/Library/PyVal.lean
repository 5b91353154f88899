import HoneyBadgerBFT.Library.Bytes
import Mathlib.Data.Rat.Defs

/-!
# Python values

`PyVal` is what a field of a message can hold: `None`, a number (an `int` or a finite `float`; equal
ones are one value), `bytes`, a `str` given by its code points, or a list of such values.  Two values
of different types are never equal, and all but the lists can be keys of a dictionary.
-/

inductive PyVal where
  | none
  | number (x : ℚ)
  | bytes (b : Bytes)
  | str (s : List ℕ)
  | list (xs : List PyVal)

namespace PyVal

mutual
/-- `x == y` -/
def eqb : PyVal → PyVal → Bool
  | none, none => true
  | number x, number y => decide (x = y)
  | bytes x, bytes y => decide (x = y)
  | str x, str y => decide (x = y)
  | list xs, list ys => eqbs xs ys
  | _, _ => false

def eqbs : List PyVal → List PyVal → Bool
  | [], [] => true
  | x :: xs, y :: ys => eqb x y && eqbs xs ys
  | _, _ => false
end

mutual
theorem eqb_iff : ∀ x y : PyVal, eqb x y = true ↔ x = y
  | none, y => by cases y <;> simp [eqb]
  | number _, y => by cases y <;> simp [eqb]
  | bytes _, y => by cases y <;> simp [eqb]
  | str _, y => by cases y <;> simp [eqb]
  | list xs, y => by cases y <;> simp [eqb, eqbs_iff xs]

theorem eqbs_iff : ∀ xs ys : List PyVal, eqbs xs ys = true ↔ xs = ys
  | [], ys => by cases ys <;> simp [eqbs]
  | x :: xs, ys => by cases ys <;> simp [eqbs, eqb_iff x, eqbs_iff xs]
end

instance : DecidableEq PyVal := fun x y => decidable_of_iff _ (eqb_iff x y)

/-- `hash(x)` of the language: lists have none -/
def hashable : PyVal → Bool
  | list _ => false
  | _ => true

/-- what `for` goes through; `none`: a `TypeError` -/
def items : PyVal → Option (List PyVal)
  | bytes b => some (b.map fun c => number c.toNat)
  | str s => some (s.map fun c => str [c])
  | list xs => some xs
  | _ => .none

/-- the value, if `isinstance(x, (str, bytes))` -/
def text : PyVal → Option Text
  | bytes b => some (.bytes b)
  | str s => some (.str s)
  | _ => .none

/-- `isinstance(x, str)` -/
def isStr : PyVal → Bool
  | str _ => true
  | _ => false

/-- a string as a value -/
def ofText : Text → PyVal
  | .bytes b => bytes b
  | .str s => str s

/-- `print(x)` does not raise, for an output in UTF-8: a `str` is written as it is, and of all other
values the `repr`, which has no surrogates in it -/
def printable : PyVal → Bool
  | str s => (encodeUtf8 s).isSome
  | _ => true

/-- the value, if `isinstance(x, bytes)` -/
def asBytes : PyVal → Option Bytes
  | bytes b => some b
  | _ => .none

theorem text_ofText (t : Text) : (ofText t).text = some t := by
  cases t <;> rfl

theorem asBytes_eq_some {x : PyVal} {b : Bytes} : x.asBytes = some b ↔ x = .bytes b := by
  cases x <;> simp [asBytes]

theorem eq_bytes_of_text {x : PyVal} {t : Text} (ht : x.text = some t) (hx : x.isStr = false) :
    ∃ b, x = .bytes b := by
  cases x with
  | bytes b => exact ⟨b, rfl⟩
  | str s => cases hx
  | _ => cases ht

theorem ne_bytes {x : PyVal} {b : Bytes} (h : x.asBytes = .none) : x ≠ .bytes b := by
  rintro rfl
  cases h

theorem mapM_asBytes (l : List Bytes) : (l.map bytes).mapM asBytes = some l := by
  induction l with
  | nil => rfl
  | cons b l ih =>
    rw [List.map_cons, List.mapM_cons, ih]
    rfl

end PyVal
