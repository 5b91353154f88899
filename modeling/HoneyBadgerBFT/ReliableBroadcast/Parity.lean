import HoneyBadgerBFT.ReliableBroadcast.Erasure

/-!
# Reliable broadcast: `zfec` for four parties

The code of `zfec` with `K = 2` and `N = 4`, for a committee of four with one Byzantine party: over
the field of 256 elements, two blocks `a` and `b` have the stripes `a`, `b`, `3a+2b` and `5a+4b`.
With `d = a+b` these are `a`, `a+d`, `a+2d` and `a+4d`, so two of them give `d` and then `a`.
-/

namespace RBC

/-- `2a` in the field of `zfec` -/
def double (a : UInt8) : UInt8 := (a <<< 1) ^^^ (if a < 128 then 0 else 0x1D)

/-- `ca`, the sum of the `2^i a` for the bits `i` of `c` -/
def product (c a : UInt8) : UInt8 :=
  ((List.range 8).foldl (fun (acc : UInt8 × UInt8) i =>
    (acc.1 ^^^ (if (c >>> i.toUInt8) % 2 = 1 then acc.2 else 0), double acc.2)) (0, a)).1

/-- the multiple of `d` that the stripe `i` has -/
def multiple : ℕ → UInt8 → UInt8
  | 0, _ => 0
  | 1, d => d
  | 2, d => double d
  | _, d => double (double d)

/-- the inverse of the difference of the multiples of the stripes `i` and `j` -/
def inverse : ℕ → ℕ → UInt8
  | 0, 1 => 1
  | 0, 2 => 142
  | 0, 3 => 71
  | 1, 2 => 244
  | 1, 3 => 167
  | _, _ => 122

/-- the byte of the stripe `i` -/
def parity (i : ℕ) (a b : UInt8) : UInt8 := a ^^^ multiple i (a ^^^ b)

/-- the bytes `d` and `a` for two bytes of the stripes `i` and `j` -/
def difference (i j : ℕ) (x y : UInt8) : UInt8 := product (inverse i j) (x ^^^ y)

def first (i j : ℕ) (x y : UInt8) : UInt8 := x ^^^ multiple i (difference i j x y)

def second (i j : ℕ) (x y : UInt8) : UInt8 := first i j x y ^^^ difference i j x y

set_option maxRecDepth 20000 in
theorem product_inverse : ∀ i < 4, ∀ j < 4, i < j → ∀ d < 256,
    product (inverse i j) (multiple i d.toUInt8 ^^^ multiple j d.toUInt8) = d.toUInt8 := by
  decide +kernel

section
variable {i j : ℕ} (hij : i < j) (hj : j < 4) (a b : UInt8)
include hij hj

theorem difference_parity : difference i j (parity i a b) (parity j a b) = a ^^^ b := by
  have hd : (a ^^^ b).toNat.toUInt8 = a ^^^ b := UInt8.ofNat_toNat
  have hinv := product_inverse i (hij.trans hj) j hj hij (a ^^^ b).toNat (UInt8.toNat_lt _)
  rw [hd] at hinv
  have hcancel : parity i a b ^^^ parity j a b = multiple i (a ^^^ b) ^^^ multiple j (a ^^^ b) := by
    unfold parity
    rw [UInt8.xor_comm a, UInt8.xor_assoc, ← UInt8.xor_assoc a a, UInt8.xor_self, UInt8.zero_xor]
  rw [difference, hcancel, hinv]

theorem first_parity : first i j (parity i a b) (parity j a b) = a := by
  rw [first, difference_parity hij hj, parity, UInt8.xor_assoc, UInt8.xor_self, UInt8.xor_zero]

theorem second_parity : second i j (parity i a b) (parity j a b) = b := by
  rw [second, first_parity hij hj, difference_parity hij hj, ← UInt8.xor_assoc, UInt8.xor_self,
    UInt8.zero_xor]

end

def encodeTwo : List Bytes → List Bytes
  | [p, q] => (List.range 4).map fun i => List.zipWith (parity i) p q
  | _ => []

def decodeTwo : List Bytes → List ℕ → Option (List Bytes)
  | [x, y], [i, j] => some [List.zipWith (first i j) x y, List.zipWith (second i j) x y]
  | _, _ => none

theorem encodeTwo_getD {p q : Bytes} {i : ℕ} (hi : i < 4) :
    (encodeTwo [p, q]).getD i [] = List.zipWith (parity i) p q := by
  rw [encodeTwo, List.getD_eq_getElem?_getD, List.getElem?_map, List.getElem?_range hi]
  rfl

theorem decodeTwo_encodeTwo {p q : Bytes} (hpq : p.length = q.length) {i j : ℕ} (hij : i < j)
    (hj : j < 4) : decodeTwo [(encodeTwo [p, q]).getD i [], (encodeTwo [p, q]).getD j []] [i, j] =
      some [p, q] := by
  rw [encodeTwo_getD (hij.trans hj), encodeTwo_getD hj]
  have hlen : ∀ k, (List.zipWith (parity k) p q).length = p.length := fun k => by
    rw [List.length_zipWith, hpq, min_self]
  have hp : List.zipWith (first i j) (List.zipWith (parity i) p q) (List.zipWith (parity j) p q) = p := by
    refine List.ext_getElem (by simp [hpq]) fun n h1 h2 => ?_
    simp only [List.getElem_zipWith]
    exact first_parity hij hj _ _
  have hq : List.zipWith (second i j) (List.zipWith (parity i) p q) (List.zipWith (parity j) p q) = q := by
    refine List.ext_getElem (by simp [hpq]) fun n h1 h2 => ?_
    simp only [List.getElem_zipWith]
    exact second_parity hij hj _ _
  rw [decodeTwo, hp, hq]

/-- `zfec` with `K = 2`, `N = 4` -/
def Zfec.twoOfFour : Zfec 2 4 where
  encode := encodeTwo
  decode := decodeTwo
  encode_length blocks step hlen _ _ := by
    obtain ⟨p, q, rfl⟩ := List.length_eq_two.mp hlen
    rfl
  decode_encode blocks step hlen _ hstep nums hnums hsort hlt := by
    obtain ⟨p, q, rfl⟩ := List.length_eq_two.mp hlen
    obtain ⟨i, j, rfl⟩ := List.length_eq_two.mp hnums
    have hpq : p.length = q.length :=
      (hstep p List.mem_cons_self).trans (hstep q (List.mem_cons_of_mem _ List.mem_cons_self)).symm
    exact decodeTwo_encodeTwo hpq (List.rel_of_pairwise_cons hsort List.mem_cons_self)
      (hlt j (List.mem_cons_of_mem _ List.mem_cons_self))

end RBC
