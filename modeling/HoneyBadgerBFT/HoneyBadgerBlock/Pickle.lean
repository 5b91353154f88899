import HoneyBadgerBFT.HoneyBadgerBlock.Block

/-!
# Pickles of protocol 3, and packages that can be run

`dumps` and `loads` for the objects that the block makes.  A pickle is a program for a stack
machine: each operation takes objects from the stack or puts one on it.  `loads` has the operations
that `dumps` uses, and one that `dumps` does not use and that runs code, a call of `os.urandom`,
which answers as `urandom` says; it raises at all others.  So `machine urandom` is the `pickle` of
the standard library on these bytes.

`five` are packages over the group of order 5: the laws that `Packages` asks for can be met.
-/

namespace Block
open TPKE

/-! ## bytes -/

/-- a number below `2^32` in four bytes, the lowest first -/
def le32 (n : ℕ) : Bytes :=
  [n.toUInt8, (n / 256).toUInt8, (n / 65536).toUInt8, (n / 16777216).toUInt8]

def le32Value (a b c d : UInt8) : ℕ :=
  a.toNat + 256 * b.toNat + 65536 * c.toNat + 16777216 * d.toNat

theorem le32Value_le32 {n : ℕ} (h : n < 2 ^ 32) :
    le32Value n.toUInt8 (n / 256).toUInt8 (n / 65536).toUInt8 (n / 16777216).toUInt8 = n := by
  simp only [le32Value, Nat.toUInt8, UInt8.toNat_ofNat']
  omega

/-- `SHORT_BINBYTES` or `BINBYTES`; `none`: there are too many bytes -/
def pickleBytes (b : Bytes) : Option Bytes :=
  if b.length < 256 then some (0x43 :: b.length.toUInt8 :: b)
  else if b.length < 2 ^ 32 then some (0x42 :: (le32 b.length ++ b))
  else none

def dumps : PyObj → Option Bytes
  | .seq [.seq [.bytes U, .bytes V, .bytes W], .bytes c] => do
    let U ← pickleBytes U
    let V ← pickleBytes V
    let W ← pickleBytes W
    let c ← pickleBytes c
    some ([0x80, 3] ++ (U ++ ([0x71, 0] ++ (V ++ ([0x71, 1] ++ (W ++ ([0x71, 2, 0x87, 0x71, 3] ++
      (c ++ [0x71, 4, 0x86, 0x71, 5, 0x2e]))))))))
  | _ => none

/-! ## the machine -/

/-- take `k` bytes of the program as an object -/
def takeBytes (k : ℕ) (v : Bytes) (stack : List PyObj) : Option (Bytes × List PyObj) :=
  if k ≤ v.length then some (v.drop k, .bytes (v.take k) :: stack) else none

/-- after the byte of `GLOBAL`: `os`, `urandom`, and the byte of `BININT1` -/
def urandomName : Bytes := [0x6f, 0x73, 0x0a, 0x75, 0x72, 0x61, 0x6e, 0x64, 0x6f, 0x6d, 0x0a, 0x4b]

/-- `GLOBAL` `os.urandom`, `BININT1` `n`, `TUPLE1` and `REDUCE`, after their first byte -/
def callUrandom (urandom : ℕ → Bytes) (v : Bytes) (stack : List PyObj) :
    Option (Bytes × List PyObj) :=
  if v.take 12 = urandomName ∧ (v.drop 13).take 2 = [0x85, 0x52] then
    some (v.drop 15, .bytes (urandom (v.getD 12 0).toNat) :: stack)
  else none

section
variable (urandom : ℕ → Bytes)

/-- the operation at the head of a program; the memo of `BINPUT` is never read -/
def execute : Bytes → List PyObj → Option (Bytes × List PyObj)
  | 0x80 :: _ :: v, stack => some (v, stack)
  | 0x71 :: _ :: v, x :: stack => some (v, x :: stack)
  | 0x43 :: k :: v, stack => takeBytes k.toNat v stack
  | 0x42 :: a :: b :: c :: d :: v, stack => takeBytes (le32Value a b c d) v stack
  | 0x86 :: v, y :: x :: stack => some (v, .seq [x, y] :: stack)
  | 0x87 :: v, z :: y :: x :: stack => some (v, .seq [x, y, z] :: stack)
  | 0x63 :: v, stack => callUrandom urandom v stack
  | _, _ => none

/-- run at most `n` operations, the last of them `STOP` -/
def load : ℕ → Bytes → List PyObj → Option PyObj
  | 0, _, _ => none
  | n + 1, v, stack =>
    match execute urandom v stack with
    | some (v, stack) => load n v stack
    | none => if v.head? = some 0x2e then stack.head? else none

def loads (v : Bytes) : Option PyObj := load urandom v.length v []

end

variable {urandom : ℕ → Bytes}

theorem takeBytes_append (b v : Bytes) (stack : List PyObj) :
    takeBytes b.length (b ++ v) stack = some (v, .bytes b :: stack) := by
  rw [takeBytes, if_pos (by simp), List.drop_left, List.take_left]

theorem execute_pickleBytes {b x : Bytes} (h : pickleBytes b = some x) (v : Bytes)
    (stack : List PyObj) : execute urandom (x ++ v) stack = some (v, .bytes b :: stack) := by
  unfold pickleBytes at h
  split at h
  · next hlen =>
    obtain rfl := Option.some.inj h
    have hk : (b.length.toUInt8).toNat = b.length := by
      simp only [Nat.toUInt8, UInt8.toNat_ofNat']
      omega
    show takeBytes (b.length.toUInt8).toNat (b ++ v) stack = _
    rw [hk, takeBytes_append]
  · split at h
    · next hlen =>
      obtain rfl := Option.some.inj h
      show takeBytes (le32Value _ _ _ _) (b ++ v) stack = _
      rw [le32Value_le32 hlen, takeBytes_append]
    · cases h

theorem load_succ {v w : Bytes} {stack rest : List PyObj} (h : execute urandom v stack = some (w, rest))
    (n : ℕ) : load urandom (n + 1) v stack = load urandom n w rest := by
  rw [load, h]

/-- **round trip** -/
theorem loads_dumps {U V W c v : Bytes}
    (h : dumps (.seq [.seq [.bytes U, .bytes V, .bytes W], .bytes c]) = some v) :
    loads urandom v = some (.seq [.seq [.bytes U, .bytes V, .bytes W], .bytes c]) := by
  obtain ⟨u, hu, h⟩ := Option.bind_eq_some_iff.mp h
  obtain ⟨x, hx, h⟩ := Option.bind_eq_some_iff.mp h
  obtain ⟨w, hw, h⟩ := Option.bind_eq_some_iff.mp h
  obtain ⟨y, hy, h⟩ := Option.bind_eq_some_iff.mp h
  obtain ⟨n, hn⟩ : ∃ n, v.length = n + 14 := by
    refine Nat.exists_eq_add_of_le' ?_
    rw [← Option.some.inj h]
    simp only [List.length_append, List.length_cons, List.length_nil]
    omega
  rw [loads, hn, ← Option.some.inj h]
  -- one line for each operation
  rw [load_succ (w := u ++ _) rfl]
  rw [load_succ (execute_pickleBytes hu _ _), load_succ (w := x ++ _) rfl]
  rw [load_succ (execute_pickleBytes hx _ _), load_succ (w := w ++ _) rfl]
  rw [load_succ (execute_pickleBytes hw _ _), load_succ (w := 0x87 :: _) rfl]
  rw [load_succ (w := 0x71 :: _) rfl, load_succ (w := y ++ _) rfl]
  rw [load_succ (execute_pickleBytes hy _ _), load_succ (w := 0x86 :: _) rfl]
  rw [load_succ (w := 0x71 :: _) rfl, load_succ (w := [0x2e]) rfl]
  rfl

/-- the `pickle` of the standard library -/
def machine (urandom : ℕ → Bytes) : Pickle := ⟨dumps, loads urandom, fun _ _ _ _ _ => loads_dumps⟩

/-- with one answer of `os.urandom` -/
def protocol3 : Pickle := machine fun n => List.replicate n 0

/-! ## the group of order 5 -/

instance prime5 : Fact (Nat.Prime 5) := ⟨Nat.prime_five⟩

abbrev Z5 := Multiplicative (ZMod 5)

def serialize5 (g : Z5) : Bytes := List.replicate 64 0 ++ [g.toAdd.val.toUInt8]

def deserialize5 (v : Bytes) : Option Z5 :=
  ((List.range 5).map fun n => (Multiplicative.ofAdd (n : ZMod 5))).find? fun g => serialize5 g = v

theorem deserialize5_serialize5 : ∀ g : Z5, deserialize5 (serialize5 g) = some g := by decide

/-- a stand-in for the cipher, its own inverse -/
def whiten (key iv x : Bytes) : Bytes :=
  x.mapIdx fun i b => b ^^^ (key.getD (i % 32) 0 ^^^ iv.getD (i % 16) 0)

theorem whiten_whiten (key iv x : Bytes) : whiten key iv (whiten key iv x) = x := by
  refine List.ext_getElem (by simp [whiten]) fun i h1 h2 => ?_
  simp only [whiten, List.getElem_mapIdx]
  rw [UInt8.xor_assoc, UInt8.xor_self, UInt8.xor_zero]

def five : Packages 5 Z5 Z5 where
  pow_order := by decide
  pair a b := Multiplicative.ofAdd (a.toAdd * b.toAdd)
  pair_mul_left := by decide
  pair_mul_right := by decide
  g1 := Multiplicative.ofAdd 1
  generates g := ⟨g.toAdd.val, by revert g; decide⟩
  nondegenerate := by decide +kernel
  serialize := serialize5
  deserialize1 := deserialize5
  deserialize2 := deserialize5
  serialize_length g := by simp [serialize5]
  deserialize1_serialize := deserialize5_serialize5
  deserialize2_serialize := deserialize5_serialize5
  hash x := Multiplicative.ofAdd ((x.map UInt8.toNat).sum : ZMod 5)
  cbcEncrypt := whiten
  cbcDecrypt := whiten
  cbcEncrypt_length key iv x := by simp [whiten]
  cbcDecrypt_length key iv x := by simp [whiten]
  cbcDecrypt_encrypt key iv x _ _ _ := whiten_whiten key iv x

end Block
