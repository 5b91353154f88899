import HoneyBadgerBFT.Library.Pairing
import Mathlib.Data.Int.NatAbs

/-!
# Interpolation over the integers

The weights of the interpolation at 0 (`basisAtZero`) are fractions.  For nodes among `1, …, l` they
become integers when they are multiplied by the factorial of `l`.

* `prod_sub_dvd_factorial`  the factorial is a multiple of each denominator;
* `sum_scaled_eval`         the value at 0, times a factor for which the weights are integers.
-/

/-! ## denominators -/

/-- different numbers from 1 to `n` have a product that divides the factorial -/
theorem prod_dvd_factorial {ι : Type} {s : Finset ι} {f : ι → ℕ} {n : ℕ} (hinj : Set.InjOn f s)
    (hmem : ∀ i ∈ s, 1 ≤ f i ∧ f i ≤ n) : ∏ i ∈ s, f i ∣ n.factorial := by
  classical
  have himage : ∏ x ∈ s.image f, x = ∏ i ∈ s, f i := Finset.prod_image hinj
  rw [← himage, ← Finset.prod_Ico_id_eq_factorial]
  refine Finset.prod_dvd_prod_of_subset _ _ _ fun x hx => ?_
  obtain ⟨i, hi, rfl⟩ := Finset.mem_image.mp hx
  exact Finset.mem_Ico.mpr ⟨(hmem i hi).1, Nat.lt_succ_of_le (hmem i hi).2⟩

/-- the distances of `j` from numbers that are all on one side of it -/
theorem prod_natAbs_dvd_factorial {s : Finset ℤ} {j : ℤ} {n : ℕ}
    (hside : (∀ i ∈ s, i < j) ∨ ∀ i ∈ s, j < i) (hle : ∀ i ∈ s, (j - i).natAbs ≤ n) :
    ∏ i ∈ s, (j - i).natAbs ∣ n.factorial := by
  refine prod_dvd_factorial (fun i hi i' hi' heq => ?_) fun i hi => ⟨?_, hle i hi⟩
  · rcases hside with hbelow | habove
    · have := hbelow i hi
      have := hbelow i' hi'
      omega
    · have := habove i hi
      have := habove i' hi'
      omega
  · rcases hside with hbelow | habove
    · have := hbelow i hi
      omega
    · have := habove i hi
      omega

/-- **the denominators**: those of the nodes below `j` divide `(j - 1)!`, those of the nodes above
it `(l - j)!` -/
theorem prod_sub_dvd_factorial {S : Finset ℤ} {l : ℕ} (hS : S ⊆ Finset.Icc 1 (l : ℤ)) {j : ℤ}
    (hj : j ∈ S) : ∏ i ∈ S.erase j, (j - i) ∣ (l.factorial : ℤ) := by
  have hrange : ∀ i ∈ S, 1 ≤ i ∧ i ≤ l := fun i hi => Finset.mem_Icc.mp (hS hi)
  obtain ⟨hj1, hjl⟩ := hrange j hj
  have hbelow : ∏ i ∈ (S.erase j).filter (fun i => i < j), (j - i).natAbs ∣
      (j - 1).toNat.factorial := by
    refine prod_natAbs_dvd_factorial (.inl fun i hi => (Finset.mem_filter.mp hi).2) fun i hi => ?_
    obtain ⟨hi, hlt⟩ := Finset.mem_filter.mp hi
    have := hrange i (Finset.mem_of_mem_erase hi)
    omega
  have habove : ∏ i ∈ (S.erase j).filter (fun i => ¬ i < j), (j - i).natAbs ∣
      (l - j).toNat.factorial := by
    have hlt : ∀ i ∈ (S.erase j).filter (fun i => ¬ i < j), j < i := fun i hi =>
      lt_of_le_of_ne (not_lt.mp (Finset.mem_filter.mp hi).2)
        (Finset.ne_of_mem_erase (Finset.mem_filter.mp hi).1).symm
    refine prod_natAbs_dvd_factorial (.inr hlt) fun i hi => ?_
    have := hlt i hi
    have := hrange i (Finset.mem_of_mem_erase (Finset.mem_filter.mp hi).1)
    omega
  have hprod : ∏ i ∈ S.erase j, (j - i).natAbs ∣ l.factorial := by
    rw [← Finset.prod_filter_mul_prod_filter_not (S.erase j) (fun i => i < j)]
    calc _ ∣ (j - 1).toNat.factorial * (l - j).toNat.factorial := mul_dvd_mul hbelow habove
      _ ∣ ((j - 1).toNat + (l - j).toNat).factorial :=
        Nat.factorial_mul_factorial_dvd_factorial_add _ _
      _ ∣ l.factorial := Nat.factorial_dvd_factorial (by omega)
  rw [← Int.natAbs_dvd_natAbs, Int.natAbs_natCast]
  have habs : (∏ i ∈ S.erase j, (j - i)).natAbs = ∏ i ∈ S.erase j, (j - i).natAbs :=
    map_prod Int.natAbsHom _ _
  rw [habs]
  exact hprod

/-! ## values -/

section
open Polynomial

/-- **interpolation without fractions** -/
theorem sum_scaled_eval {S : Finset ℤ} {f : ℤ[X]} (hf : f.degree < S.card) {D : ℤ} {w : ℤ → ℤ}
    (hw : ∀ j ∈ S, w j * ∏ i ∈ S.erase j, (j - i) = D * ∏ i ∈ S.erase j, (0 - i)) :
    ∑ j ∈ S, w j * f.eval j = D * f.eval 0 := by
  let g : ℚ[X] := f.map (Int.castRingHom ℚ)
  have hg : g.degree < S.card := lt_of_le_of_lt degree_map_le hf
  have heval : ∀ j : ℤ, g.eval (j : ℚ) = (f.eval j : ℤ) := fun j => eval_intCast_map _ f j
  have hweight : ∀ j ∈ S, (w j : ℚ) = D * basisAtZero S (fun i : ℤ => (i : ℚ)) j := by
    intro j hj
    have hne : ∏ i ∈ S.erase j, ((j : ℚ) - i) ≠ 0 := by
      refine Finset.prod_ne_zero_iff.mpr fun i hi => ?_
      have hij := Finset.ne_of_mem_erase hi
      exact sub_ne_zero.mpr (by exact_mod_cast hij.symm)
    have hcast := congrArg (fun x : ℤ => (x : ℚ)) (hw j hj)
    push_cast at hcast
    rw [basisAtZero, Finset.prod_div_distrib, ← mul_div_assoc, eq_div_iff hne]
    exact hcast
  have hinterp := sum_basis_eval_zero (s := S) (v := fun i : ℤ => (i : ℚ))
    (Int.cast_injective.injOn) hg
  have hzero : g.eval 0 = (f.eval 0 : ℤ) := by
    have h := heval 0
    rwa [Int.cast_zero] at h
  apply Int.cast_injective (α := ℚ)
  push_cast
  rw [← hzero, ← hinterp, Finset.mul_sum]
  refine Finset.sum_congr rfl fun j hj => ?_
  rw [hweight j hj, heval, mul_assoc, mul_comm (basisAtZero _ _ _)]

/-- the polynomial with the given coefficients, the constant one first -/
noncomputable def ofCoeffs : List ℤ → ℤ[X]
  | [] => 0
  | c :: a => C c + X * ofCoeffs a

theorem degree_ofCoeffs (a : List ℤ) : (ofCoeffs a).degree < a.length := by
  rw [degree_lt_iff_coeff_zero]
  induction a with
  | nil =>
    intro m _
    rw [ofCoeffs, coeff_zero]
  | cons c a ih =>
    intro m hm
    rw [List.length_cons] at hm
    obtain ⟨m, rfl⟩ : ∃ m', m = m' + 1 := ⟨m - 1, by omega⟩
    rw [ofCoeffs, coeff_add, coeff_C_succ, coeff_X_mul, zero_add]
    exact ih m (by omega)

theorem eval_zero_ofCoeffs (c : ℤ) (a : List ℤ) : (ofCoeffs (c :: a)).eval 0 = c := by
  simp [ofCoeffs]

end
