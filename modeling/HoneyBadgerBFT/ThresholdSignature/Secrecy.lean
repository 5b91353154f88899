import HoneyBadgerBFT.CommonCoin.Agreement
import HoneyBadgerBFT.HoneyBadgerBlock.Pickle
import Mathlib.Data.Set.Card
import Mathlib.Data.Fintype.Vector

/-!
# What fewer than `k` keys say about the secret

The coefficients of the dealer are a vector of length `k` that starts with the secret.  For a set of
at most `k-1` parties there is a polynomial that is 0 at all their points and any number at 0
(`exists_mask`); adding it to that of the dealer changes the secret and no key of the set (`shift`).
So every assignment of keys to the set comes from as many vectors for one secret as for another.
-/

namespace TPKE
open Polynomial

variable {p : ℕ} [Fact p.Prime] {k : ℕ}

/-! ## coefficients -/

theorem coeff_poly (a : List (ZMod p)) : ∀ n, (poly a).coeff n = a.getD n 0 := by
  induction a with
  | nil => intro n; simp [poly]
  | cons c a ih =>
    intro n
    cases n with
    | zero => simp [poly]
    | succ n => simp [poly, coeff_X_mul, ih]

theorem poly_inj {a b : List (ZMod p)} (hlen : a.length = b.length) (h : poly a = poly b) :
    a = b := by
  refine List.ext_getElem hlen fun n h1 h2 => ?_
  have hcoeff := congrArg (fun f => f.coeff n) h
  simpa [coeff_poly, List.getElem?_eq_getElem h1, List.getElem?_eq_getElem h2] using hcoeff

/-- the vector of the first `k` coefficients -/
noncomputable def coeffs (k : ℕ) (f : (ZMod p)[X]) : List.Vector (ZMod p) k :=
  ⟨(List.range k).map f.coeff, by simp⟩

theorem poly_coeffs {f : (ZMod p)[X]} (hf : f.degree < k) : poly (coeffs k f).toList = f := by
  ext n
  have hget : (coeffs k f).toList = (List.range k).map f.coeff := rfl
  rw [coeff_poly, hget, List.getD_eq_getElem?_getD, List.getElem?_map]
  by_cases hn : n < k
  · rw [List.getElem?_range hn]
    rfl
  · have hz : f.coeff n = 0 :=
      coeff_eq_zero_of_degree_lt (hf.trans_le (by exact_mod_cast not_lt.mp hn))
    rw [hz, List.getElem?_eq_none (by rw [List.length_range]; omega)]
    rfl

/-! ## another secret -/

/-- the coefficients for the sum with the mask `f` -/
noncomputable def shift (f : (ZMod p)[X]) (a : List.Vector (ZMod p) k) : List.Vector (ZMod p) k :=
  coeffs k (poly a.toList + f)

section
variable {f : (ZMod p)[X]} (hf : f.degree < k)
include hf

theorem poly_shift (a : List.Vector (ZMod p) k) : poly (shift f a).toList = poly a.toList + f := by
  refine poly_coeffs ((degree_add_le _ _).trans_lt (max_lt ?_ hf))
  exact (degree_poly a.toList).trans_le (by rw [List.Vector.toList_length])

theorem shift_injective : Function.Injective (shift (k := k) f) := by
  intro a b hab
  have hpoly := congrArg (fun c : List.Vector (ZMod p) k => poly c.toList) hab
  simp only [poly_shift hf, add_left_inj] at hpoly
  exact List.Vector.toList_injective (poly_inj (by simp) hpoly)

end

/-- the vectors that start with `secret` and give the parties in `T` the keys `y` -/
def Keyed (k : ℕ) (T : Finset ℕ) (y : ℕ → ZMod p) (secret : ZMod p) :
    Set (List.Vector (ZMod p) k) :=
  {a | a.toList.head? = some secret ∧ ∀ i ∈ T, secretKey a.toList i = y i}

theorem head?_iff (hk : 0 < k) (a : List.Vector (ZMod p) k) (secret : ZMod p) :
    a.toList.head? = some secret ↔ (poly a.toList).eval 0 = secret := by
  obtain ⟨c, l, hl⟩ := List.exists_cons_of_length_pos (by rwa [a.toList_length] : 0 < a.toList.length)
  rw [hl, eval_zero_poly, List.head?_cons, Option.some_inj]

theorem ncard_keyed_le {players : ℕ} (hp : players < p) {T : Finset ℕ}
    (hT : T ⊆ Finset.range players) (hcard : T.card < k) (y : ℕ → ZMod p) (secret secret' : ZMod p) :
    (Keyed k T y secret).ncard ≤ (Keyed k T y secret').ncard := by
  -- no point of a party is 0
  have hpoint : ∀ i ∈ T, (i : ZMod p) + 1 ≠ 0 := by
    intro i hi hzero
    have hlt := Finset.mem_range.mp (hT hi)
    have hdvd : p ∣ i + 1 := (ZMod.natCast_eq_zero_iff _ _).mp (by exact_mod_cast hzero)
    exact absurd (Nat.le_of_dvd (Nat.succ_pos i) hdvd) (by omega)
  obtain ⟨f, hdeg, hzero, hmask⟩ := exists_mask T hpoint (secret' - secret)
  have hf : f.degree < k := hdeg.trans_lt (by exact_mod_cast hcard)
  refine Set.ncard_le_ncard_of_injOn (shift f) (fun a ha => ⟨?_, fun i hi => ?_⟩)
    (shift_injective hf).injOn (Set.toFinite _)
  · have hk : 0 < k := (Nat.zero_le _).trans_lt hcard
    rw [head?_iff hk, poly_shift hf, eval_add, (head?_iff hk a secret).mp ha.1, hzero]
    exact add_sub_cancel _ _
  · rw [secretKey_eq, poly_shift hf, eval_add, hmask i hi, add_zero, ← secretKey_eq]
    exact ha.2 i hi

/-! ## the dealers -/

section
variable {G : Type} {dealer : ZMod p → List (ZMod p) → Option (PublicKey G × List (PrivateKey p G))}

/-- the coefficient vectors of length `k` that start with `secret` and for which the dealer gives
the parties in `T` the keys `y` -/
def Dealings (dealer : ZMod p → List (ZMod p) → Option (PublicKey G × List (PrivateKey p G)))
    (k : ℕ) (T : Finset ℕ) (y : ℕ → ZMod p) (secret : ZMod p) : Set (List.Vector (ZMod p) k) :=
  {a | ∃ rest PK SKs, a.toList = secret :: rest ∧ dealer secret rest = some (PK, SKs) ∧
    ∀ i ∈ T, SKs[i]?.map PrivateKey.SK = some (y i)}

theorem dealings_eq {players : ℕ} {key : List (ZMod p) → ℕ → PrivateKey p G}
    (hdeal : ∀ secret rest, (secret :: rest).length = k → ∃ PK,
      dealer secret rest = some (PK, (List.range players).map (key (secret :: rest))))
    (hkey : ∀ a i, (key a i).SK = secretKey a i) {T : Finset ℕ} (hT : T ⊆ Finset.range players)
    (y : ℕ → ZMod p) (secret : ZMod p) : Dealings dealer k T y secret = Keyed k T y secret := by
  have hget : ∀ a : List (ZMod p), ∀ i ∈ T,
      (((List.range players).map (key a))[i]?).map PrivateKey.SK = some (secretKey a i) := by
    intro a i hi
    rw [List.getElem?_map, List.getElem?_range (Finset.mem_range.mp (hT hi)), Option.map_some,
      Option.map_some, hkey]
  ext a
  constructor
  · rintro ⟨rest, PK, SKs, ha, hd, hy⟩
    obtain ⟨PK', hd'⟩ := hdeal secret rest (by rw [← ha, a.toList_length])
    obtain ⟨rfl, rfl⟩ := Prod.mk.inj (Option.some.inj (hd.symm.trans hd'))
    refine ⟨by rw [ha]; rfl, fun i hi => ?_⟩
    rw [ha]
    exact Option.some.inj ((hget _ i hi).symm.trans (hy i hi))
  · rintro ⟨hhead, hy⟩
    obtain ⟨rest, ha⟩ : ∃ rest, a.toList = secret :: rest := by
      cases hl : a.toList with
      | nil => rw [hl] at hhead; cases hhead
      | cons c rest =>
        rw [hl] at hhead
        exact ⟨rest, by rw [Option.some.inj hhead]⟩
    obtain ⟨PK, hd⟩ := hdeal secret rest (by rw [← ha, a.toList_length])
    refine ⟨rest, PK, _, ha, hd, fun i hi => ?_⟩
    rw [hget _ i hi, ← ha, hy i hi]

end

/-- **secrecy of the keys**: whatever keys fewer than `k` parties have, as many coefficient vectors
give them for one secret as for any other, in `tpke` and in `boldyreva` -/
theorem keys_secret {p q : ℕ} [Fact p.Prime] [Fact q.Prime] {G T G₁ G₂ T' : Type} [CommGroup G]
    [CommGroup T] [CommGroup G₁] [CommGroup G₂] [CommGroup T'] (E : Packages p G T)
    (E' : TSIG.Charm q G₁ G₂ T') (players k : ℕ) (hp : players < p) (hq : players < q)
    (hk : k ≤ players) (A : Finset ℕ) (hA : A ⊆ Finset.range players) (hcard : A.card < k) :
    (∀ (y : ℕ → ZMod p) (secret secret' : ZMod p),
      (Dealings (dealer E players k) k A y secret).ncard =
        (Dealings (dealer E players k) k A y secret').ncard) ∧
    ∀ (y : ℕ → ZMod q) (secret secret' : ZMod q),
      (Dealings (TSIG.dealer E' players k) k A y secret).ncard =
        (Dealings (TSIG.dealer E' players k) k A y secret').ncard := by
  refine ⟨fun y secret secret' => ?_, fun y secret secret' => ?_⟩
  · have heq : ∀ s, Dealings (dealer E players k) k A y s = Keyed k A y s :=
      dealings_eq (fun s rest hlen => ⟨_, dealer_eq hp hk s hlen⟩) (fun _ _ => rfl) hA y
    rw [heq, heq]
    exact le_antisymm (ncard_keyed_le hp hA hcard y _ _) (ncard_keyed_le hp hA hcard y _ _)
  · have heq : ∀ s, Dealings (TSIG.dealer E' players k) k A y s = Keyed k A y s :=
      dealings_eq (fun s rest hlen => ⟨_, TSIG.dealer_eq E' hq hk s hlen⟩) (fun _ _ => rfl) hA y
    rw [heq, heq]
    exact le_antisymm (ncard_keyed_le hq hA hcard y _ _) (ncard_keyed_le hq hA hcard y _ _)

/-- the keys of the parties 1 and 3 of four, three of which decrypt -/
theorem keys_secret_four :
    ⟨[0, 4, 1], rfl⟩ ∈ Dealings (dealer Block.five 4 3) 3 {1, 3} (fun _ => 2) 0 ∧
    ⟨[4, 1, 4], rfl⟩ ∈ Dealings (dealer Block.five 4 3) 3 {1, 3} (fun _ => 2) 4 ∧
    (Dealings (dealer Block.five 4 3) 3 {1, 3} (fun _ => 2) 0).ncard =
      (Dealings (dealer Block.five 4 3) 3 {1, 3} (fun _ => 2) 4).ncard :=
  ⟨⟨[4, 1], _, _, rfl, dealer_eq (by decide) (by decide) 0 rfl, by decide⟩,
    ⟨[1, 4], _, _, rfl, dealer_eq (by decide) (by decide) 4 rfl, by decide⟩,
    (keys_secret Block.five Coin.seven 4 3 (by decide) (by decide) (by decide) {1, 3} (by decide)
      (by decide)).1 _ 0 4⟩

end TPKE
