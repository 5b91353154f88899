import Mathlib.LinearAlgebra.Lagrange
import Mathlib.Data.ZMod.Basic
import Mathlib.Algebra.Field.ZMod
import Mathlib.Tactic

/-!
# Pairings and sharing in the exponent

`BilinearMap p G₁ G₂ T` is a group `G₁` of prime order `p` with a generator `g1`, a second group
with an element `g2`, and a bilinear map into `T` that is not degenerate at the two; `Pairing p G T`
is the case of one group.  Exponents are in `ZMod p`: `g ^ x.val`.

* `pair_eq_iff`         the check `e(a, g2) = e(u, g2 ^ x)` says that `a = u ^ x`;
* `sum_basis_eval_zero` the value of a polynomial at 0 from its values at as many points as it has
                        coefficients;
* `exists_mask`         a polynomial that moves the value at 0 and none at fewer points;
* `prod_share`          the same in the exponent: the shares `u ^ f(x)` give `u ^ f(0)`.
-/

/-! ## exponents -/

section
variable {p : ℕ} {G : Type} [CommGroup G] (hG : ∀ g : G, g ^ p = 1)
include hG

theorem pow_mod_order (g : G) (n : ℕ) : g ^ (n % p) = g ^ n := by
  conv_rhs => rw [← Nat.div_add_mod n p, pow_add, pow_mul, hG, one_pow, one_mul]

theorem pow_val_add [NeZero p] (g : G) (x y : ZMod p) : g ^ (x + y).val = g ^ x.val * g ^ y.val := by
  rw [ZMod.val_add, pow_mod_order hG, pow_add]

theorem pow_val_mul (g : G) (x y : ZMod p) : g ^ (x * y).val = (g ^ x.val) ^ y.val := by
  rw [ZMod.val_mul, pow_mod_order hG, pow_mul]

theorem pow_val_sum [NeZero p] {ι : Type} (g : G) (s : Finset ι) (x : ι → ZMod p) :
    g ^ (∑ i ∈ s, x i).val = ∏ i ∈ s, g ^ (x i).val := by
  classical
  induction s using Finset.induction_on with
  | empty => rw [Finset.sum_empty, Finset.prod_empty, ZMod.val_zero, pow_zero]
  | insert i s hi ih => rw [Finset.sum_insert hi, Finset.prod_insert hi, pow_val_add hG, ih]

end

/-! ## bilinear maps -/

/-- a group of prime order with a bilinear map -/
structure BilinearMap (p : ℕ) (G₁ G₂ T : Type) [CommGroup G₁] [CommGroup G₂] [CommGroup T] where
  pow_order : ∀ g : G₁, g ^ p = 1
  pair : G₁ → G₂ → T
  pair_mul_left : ∀ a b c, pair (a * b) c = pair a c * pair b c
  pair_mul_right : ∀ a b c, pair a (b * c) = pair a b * pair a c
  g1 : G₁
  g2 : G₂
  generates : ∀ g : G₁, ∃ n : ℕ, g = g1 ^ n
  nondegenerate : pair g1 g2 ≠ 1

namespace BilinearMap
variable {p : ℕ} {G₁ G₂ T : Type} [CommGroup G₁] [CommGroup G₂] [CommGroup T]
  (E : BilinearMap p G₁ G₂ T)
include E

theorem pair_one_left (c : G₂) : E.pair 1 c = 1 := by
  have h := E.pair_mul_left 1 1 c
  rw [one_mul] at h
  exact left_eq_mul.mp h

theorem pair_one_right (a : G₁) : E.pair a 1 = 1 := by
  have h := E.pair_mul_right a 1 1
  rw [one_mul] at h
  exact left_eq_mul.mp h

theorem pair_pow_left (a : G₁) (c : G₂) (n : ℕ) : E.pair (a ^ n) c = E.pair a c ^ n := by
  induction n with
  | zero => rw [pow_zero, pow_zero, E.pair_one_left]
  | succ n ih => rw [pow_succ, pow_succ, E.pair_mul_left, ih]

theorem pair_pow_right (a : G₁) (c : G₂) (n : ℕ) : E.pair a (c ^ n) = E.pair a c ^ n := by
  induction n with
  | zero => rw [pow_zero, pow_zero, E.pair_one_right]
  | succ n ih => rw [pow_succ, pow_succ, E.pair_mul_right, ih]

theorem pair_order : E.pair E.g1 E.g2 ^ p = 1 := by
  rw [← E.pair_pow_left, E.pow_order, E.pair_one_left]

/-- only the unit pairs with `g2` to the unit -/
theorem eq_one_of_pair [Fact p.Prime] {a : G₁} (h : E.pair a E.g2 = 1) : a = 1 := by
  obtain ⟨n, rfl⟩ := E.generates a
  rw [E.pair_pow_left] at h
  have hord : orderOf (E.pair E.g1 E.g2) = p :=
    orderOf_eq_prime E.pair_order E.nondegenerate
  have hdvd : p ∣ n := hord ▸ orderOf_dvd_of_pow_eq_one h
  obtain ⟨k, rfl⟩ := hdvd
  rw [pow_mul, E.pow_order, one_pow]

/-- **the check of a share** -/
theorem pair_eq_iff [Fact p.Prime] (a u : G₁) (n : ℕ) :
    E.pair a E.g2 = E.pair u (E.g2 ^ n) ↔ a = u ^ n := by
  rw [E.pair_pow_right, ← E.pair_pow_left]
  constructor
  · intro h
    have hquot : E.pair (a * (u ^ n)⁻¹) E.g2 = 1 := by
      have hinv : E.pair (u ^ n)⁻¹ E.g2 * E.pair (u ^ n) E.g2 = 1 := by
        rw [← E.pair_mul_left, inv_mul_cancel, E.pair_one_left]
      rw [E.pair_mul_left, h, mul_comm]
      exact hinv
    exact mul_inv_eq_one.mp (E.eq_one_of_pair hquot)
  · rintro rfl
    rfl

end BilinearMap

/-- a group of prime order with a pairing -/
structure Pairing (p : ℕ) (G T : Type) [CommGroup G] [CommGroup T] where
  pow_order : ∀ g : G, g ^ p = 1
  pair : G → G → T
  pair_mul_left : ∀ a b c, pair (a * b) c = pair a c * pair b c
  pair_mul_right : ∀ a b c, pair a (b * c) = pair a b * pair a c
  g1 : G
  generates : ∀ g : G, ∃ n : ℕ, g = g1 ^ n
  nondegenerate : pair g1 g1 ≠ 1

namespace Pairing
variable {p : ℕ} {G T : Type} [CommGroup G] [CommGroup T] (E : Pairing p G T)

/-- the pairing as a bilinear map, with the generator on both sides -/
def bilinear : BilinearMap p G G T := { E with g2 := E.g1 }

theorem pair_pow_left (a c : G) (n : ℕ) : E.pair (a ^ n) c = E.pair a c ^ n :=
  E.bilinear.pair_pow_left a c n

theorem pair_pow_right (a c : G) (n : ℕ) : E.pair a (c ^ n) = E.pair a c ^ n :=
  E.bilinear.pair_pow_right a c n

theorem pair_eq_iff [Fact p.Prime] (a u : G) (n : ℕ) :
    E.pair a E.g1 = E.pair u (E.g1 ^ n) ↔ a = u ^ n :=
  E.bilinear.pair_eq_iff a u n

end Pairing

/-! ## interpolation at 0 -/

section
variable {F : Type} [Field F] {ι : Type} [DecidableEq ι]

/-- the value at 0 of the basis polynomial of the node `j` -/
def basisAtZero (s : Finset ι) (v : ι → F) (j : ι) : F := ∏ i ∈ s.erase j, (0 - v i) / (v j - v i)

theorem eval_basis_zero (s : Finset ι) (v : ι → F) (j : ι) :
    (Lagrange.basis s v j).eval 0 = basisAtZero s v j := by
  unfold Lagrange.basis basisAtZero
  rw [Polynomial.eval_prod]
  refine Finset.prod_congr rfl fun i _ => ?_
  simp only [Lagrange.basisDivisor, Polynomial.eval_mul, Polynomial.eval_C, Polynomial.eval_sub,
    Polynomial.eval_X]
  rw [div_eq_mul_inv, mul_comm]

/-- **interpolation** -/
theorem sum_basis_eval_zero {s : Finset ι} {v : ι → F} (hv : Set.InjOn v s)
    {f : Polynomial F} (hf : f.degree < s.card) :
    ∑ j ∈ s, f.eval (v j) * basisAtZero s v j = f.eval 0 := by
  conv_rhs => rw [Lagrange.eq_interpolate hv hf, Lagrange.interpolate_apply, Polynomial.eval_finsetSum]
  refine Finset.sum_congr rfl fun j _ => ?_
  rw [Polynomial.eval_mul, Polynomial.eval_C, eval_basis_zero]

omit [DecidableEq ι] in
/-- **a mask**: fewer points than coefficients leave the value at 0 open -/
theorem exists_mask (s : Finset ι) {v : ι → F} (hv : ∀ i ∈ s, v i ≠ 0) (c : F) :
    ∃ f : Polynomial F, f.degree ≤ s.card ∧ f.eval 0 = c ∧ ∀ i ∈ s, f.eval (v i) = 0 := by
  refine ⟨Polynomial.C c * ∏ i ∈ s, (1 - Polynomial.C (v i)⁻¹ * Polynomial.X), ?_, ?_,
    fun i hi => ?_⟩
  · have hfactor : ∀ i, (1 - Polynomial.C (v i)⁻¹ * Polynomial.X).degree ≤ 1 := fun i =>
      (Polynomial.degree_sub_le _ _).trans
        (max_le (Polynomial.degree_one_le.trans zero_le_one) (Polynomial.degree_C_mul_X_le _))
    have hprod : Polynomial.degree (∏ i ∈ s, (1 - Polynomial.C (v i)⁻¹ * Polynomial.X)) ≤
        (s.card : WithBot ℕ) := by
      refine (Polynomial.degree_prod_le _ _).trans ((Finset.sum_le_sum fun i _ => hfactor i).trans ?_)
      simp
    refine (Polynomial.degree_mul_le _ _).trans ?_
    simpa using add_le_add (Polynomial.degree_C_le (a := c)) hprod
  · simp [Polynomial.eval_prod]
  · rw [Polynomial.eval_mul, Polynomial.eval_prod, Finset.prod_eq_zero hi, mul_zero]
    simp [hv i hi]

end

/-- **interpolation in the exponent** -/
theorem prod_share {p : ℕ} [Fact p.Prime] {G : Type} [CommGroup G] (hG : ∀ g : G, g ^ p = 1)
    {ι : Type} [DecidableEq ι] {s : Finset ι} {v : ι → ZMod p} (hv : Set.InjOn v s)
    {f : Polynomial (ZMod p)} (hf : f.degree < s.card) (u : G) :
    ∏ j ∈ s, (u ^ (f.eval (v j)).val) ^ (basisAtZero s v j).val = u ^ (f.eval 0).val := by
  rw [← sum_basis_eval_zero hv hf, pow_val_sum hG]
  exact Finset.prod_congr rfl fun j _ => (pow_val_mul hG u _ _).symm
