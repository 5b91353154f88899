import Mathlib.Algebra.Ring.Commute
import Mathlib.FieldTheory.Finite.Basic
import Mathlib.NumberTheory.LucasPrimality
import Mathlib.Tactic

/-!
# Powers of residues

* `pow_eq_one_cases`        where a power `2^s * d` is 1, a power `2^i * d` before it is -1, or the
                            power `d` is 1 already: 1 has two square roots only;
* `pow_product_eq_one`      the units modulo `(2p'+1)(2q'+1)`, for two primes, to the power `2p'q'`;
* `prod_zpow_eq`            a product of powers of one element;
* `prime_of_two_factors`    the test of Lucas for a number above one with two prime factors.
-/

/-- **the chain of squares**: going back from 1, one meets 1 until the start or -1 first -/
theorem pow_eq_one_cases {R : Type} [CommRing R] [NoZeroDivisors R] {x : R} {d : ℕ} :
    ∀ s, x ^ (2 ^ s * d) = 1 → x ^ d = 1 ∨ ∃ i < s, x ^ (2 ^ i * d) = -1 := by
  intro s
  induction s with
  | zero =>
    intro h
    rw [pow_zero, one_mul] at h
    exact .inl h
  | succ s ih =>
    intro h
    have hsquare : x ^ (2 ^ s * d) * x ^ (2 ^ s * d) = 1 := by
      rw [← pow_add, ← h]
      congr 1
      ring
    rcases mul_self_eq_one_iff.mp hsquare with hone | hneg
    · rcases ih hone with hd | ⟨i, hi, hroot⟩
      · exact .inl hd
      · exact .inr ⟨i, hi.trans (Nat.lt_succ_self s), hroot⟩
    · exact .inr ⟨s, Nat.lt_succ_self s, hneg⟩

/-- a residue that is -1 -/
theorem natCast_eq_neg_one_iff {n : ℕ} (hn : 0 < n) (a : ℕ) :
    (a : ZMod n) = -1 ↔ a % n = n - 1 := by
  have hneg : (-1 : ZMod n) = ((n - 1 : ℕ) : ZMod n) := by
    rw [Nat.cast_sub hn, ZMod.natCast_self, Nat.cast_one, zero_sub]
  rw [hneg, ZMod.natCast_eq_natCast_iff', Nat.mod_eq_of_lt (Nat.sub_lt hn one_pos)]

theorem natCast_eq_one_iff {n : ℕ} (hn : 1 < n) (a : ℕ) : (a : ZMod n) = 1 ↔ a % n = 1 := by
  rw [← Nat.cast_one, ZMod.natCast_eq_natCast_iff', Nat.mod_eq_of_lt hn]

/-- **the order of the units modulo a product**: half of the order of the group is enough -/
theorem pow_product_eq_one {p' q' : ℕ} (hp : (2 * p' + 1).Prime) (hq : (2 * q' + 1).Prime)
    (hne : 2 * p' + 1 ≠ 2 * q' + 1) (u : (ZMod ((2 * p' + 1) * (2 * q' + 1)))ˣ) :
    u ^ (2 * (p' * q')) = 1 := by
  have hfermat : ∀ {r' : ℕ}, (2 * r' + 1).Prime → ∀ (v : (ZMod (2 * r' + 1))ˣ) (k : ℕ),
      v ^ (2 * r' * k) = 1 := by
    intro r' hr v k
    have : Fact (2 * r' + 1).Prime := ⟨hr⟩
    rw [pow_mul]
    have hv : v ^ (2 * r') = 1 := ZMod.units_pow_card_sub_one_eq_one _ v
    rw [hv, one_pow]
  let e := ZMod.chineseRemainder ((Nat.coprime_primes hp hq).mpr hne)
  refine (Units.mapEquiv e.toMulEquiv).injective (MulEquiv.prodUnits.injective (Prod.ext ?_ ?_))
  · rw [map_one, map_one, map_pow, map_pow, Prod.pow_fst, ← mul_assoc]
    exact hfermat hp _ q'
  · rw [map_one, map_one, map_pow, map_pow, Prod.pow_snd, mul_comm p', ← mul_assoc]
    exact hfermat hq _ p'

theorem prod_zpow_eq {ι H : Type} [CommGroup H] (u : H) (s : Finset ι) (c : ι → ℤ) :
    ∏ i ∈ s, u ^ c i = u ^ ∑ i ∈ s, c i := by
  classical
  induction s using Finset.induction_on with
  | empty => rw [Finset.prod_empty, Finset.sum_empty, zpow_zero]
  | insert i s hi ih => rw [Finset.prod_insert hi, Finset.sum_insert hi, ih, zpow_add]

/-- **the test of Lucas**, where `n - 1` has two prime factors -/
theorem prime_of_two_factors {n r s a b : ℕ} (hr : r.Prime) (hs : s.Prime)
    (hn : n - 1 = r ^ a * s ^ b) (g : ZMod n) (hone : g ^ (n - 1) = 1)
    (hgr : g ^ ((n - 1) / r) ≠ 1) (hgs : g ^ ((n - 1) / s) ≠ 1) : n.Prime := by
  refine lucas_primality n g hone fun q hq hdvd => ?_
  rw [hn, hq.dvd_mul] at hdvd
  rcases hdvd with h | h
  · rw [(Nat.prime_dvd_prime_iff_eq hq hr).mp (hq.dvd_of_dvd_pow h)]
    exact hgr
  · rw [(Nat.prime_dvd_prime_iff_eq hq hs).mp (hq.dvd_of_dvd_pow h)]
    exact hgs

/-- **a safe prime**, by this test for `p` and, with 2, for `2 p + 1` -/
theorem safe_prime_of_pow {p r s a b : ℕ} (hr : r.Prime) (hs : s.Prime)
    (hp : p - 1 = r ^ a * s ^ b) (g : ZMod p) (hone : g ^ (p - 1) = 1)
    (hgr : g ^ ((p - 1) / r) ≠ 1) (hgs : g ^ ((p - 1) / s) ≠ 1)
    (hone' : (2 : ZMod (2 * p + 1)) ^ (2 * p) = 1) (hp' : (2 : ZMod (2 * p + 1)) ^ p ≠ 1) :
    p.Prime ∧ (2 * p + 1).Prime := by
  have hprime := prime_of_two_factors hr hs hp g hone hgr hgs
  have hsq : (2 : ZMod (2 * p + 1)) ^ 2 ≠ 1 := by
    intro h
    have hzero : ((3 : ℕ) : ZMod (2 * p + 1)) = 0 := by
      push_cast
      linear_combination h
    have hle := Nat.le_of_dvd (by decide) ((ZMod.natCast_eq_zero_iff 3 (2 * p + 1)).mp hzero)
    have htwo := hprime.two_le
    omega
  have hhalf : 2 * p + 1 - 1 = 2 ^ 1 * p ^ 1 := by rw [Nat.add_sub_cancel, pow_one, pow_one]
  refine ⟨hprime, prime_of_two_factors Nat.prime_two hprime hhalf 2 hone' ?_ ?_⟩
  · rw [Nat.add_sub_cancel, Nat.mul_div_cancel_left p two_pos]
    exact hp'
  · rw [Nat.add_sub_cancel, Nat.mul_div_cancel 2 hprime.pos]
    exact hsq
