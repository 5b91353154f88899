import HoneyBadgerBFT.Library.Residues

/-!
# The test of Miller and Rabin

`is_probable_prime` of `millerrabin`.  The random bases are an argument, `randrange i` for the
`i`-th of them, and `none` is an assertion that fails.

* `splitLoop_spec`     the loop that splits `n - 1` ends, with the factors that are asserted;
* `tryComposite_iff`   when the base `a` is a witness for the compositeness of `n`;
* `prime_passes`       a prime has no such base, and is never rejected.
-/

namespace MillerRabin

/-- `_mrpt_num_trials`: number of bases to test -/
def mrptNumTrials : ℕ := 50

/-- repeatedly try to divide `d` by 2; at 0 the loop would not end -/
def splitLoop (s d : ℕ) : Option (ℕ × ℕ) :=
  if d % 2 = 1 then some (s, d)
  else if d = 0 then none
  else splitLoop (s + 1) (d / 2)
termination_by d

/-- `try_composite(a)` -/
def tryComposite (n s d a : ℕ) : Bool :=
  if a ^ d % n = 1 then false
  else if (List.range s).any fun i => a ^ (2 ^ i * d) % n = n - 1 then false
  else true  -- `n` is definitely composite

/-- `is_probable_prime(n)` -/
def isProbablePrime (n : ℕ) (randrange : ℕ → ℕ) : Option Bool :=
  if n < 2 then none
  else if n = 2 then some true
  else if n % 2 = 0 then some false
  else
    match splitLoop 0 (n - 1) with
    | none => none
    | some (s, d) =>
      if 2 ^ s * d = n - 1 then
        some (!(List.range mrptNumTrials).any fun i => tryComposite n s d (randrange i))
      else none

/-- **the loop ends**, with an odd factor -/
theorem splitLoop_spec (s d : ℕ) (hd : 0 < d) : ∃ s' d', splitLoop s d = some (s', d') ∧
    2 ^ s' * d' = 2 ^ s * d ∧ d' % 2 = 1 := by
  induction s, d using splitLoop.induct with
  | case1 s d hodd => exact ⟨s, d, by rw [splitLoop, if_pos hodd], rfl, hodd⟩
  | case2 s => exact absurd hd (lt_irrefl 0)
  | case3 s d hodd hne ih =>
    have heven : 2 * (d / 2) = d := by omega
    obtain ⟨s', d', hloop, hprod, hodd'⟩ := ih (by omega)
    refine ⟨s', d', by rw [splitLoop, if_neg hodd, if_neg hne, hloop], ?_, hodd'⟩
    calc 2 ^ s' * d' = 2 ^ (s + 1) * (d / 2) := hprod
      _ = 2 ^ s * (2 * (d / 2)) := by rw [pow_succ, mul_assoc]
      _ = 2 ^ s * d := by rw [heven]

/-- what is asserted after the loop for `n - 1` -/
theorem splitLoop_pred {n : ℕ} (hn : 2 ≤ n) : ∃ s d, splitLoop 0 (n - 1) = some (s, d) ∧
    2 ^ s * d = n - 1 ∧ d % 2 = 1 := by
  obtain ⟨s, d, hloop, hprod, hodd⟩ := splitLoop_spec 0 (n - 1) (by omega)
  rw [pow_zero, one_mul] at hprod
  exact ⟨s, d, hloop, hprod, hodd⟩

theorem tryComposite_iff (n s d a : ℕ) : tryComposite n s d a = true ↔
    a ^ d % n ≠ 1 ∧ ∀ i < s, a ^ (2 ^ i * d) % n ≠ n - 1 := by
  unfold tryComposite
  split
  · next hone => simp [hone]
  · next hone =>
    rw [ite_eq_right_iff]
    simp [hone]

/-- **a prime has no witness**: Fermat's theorem, and the chain of squares back from 1 -/
theorem tryComposite_prime {n s d a : ℕ} (hn : n.Prime) (hsplit : 2 ^ s * d = n - 1)
    (ha : 0 < a) (han : a < n) : tryComposite n s d a = false := by
  have : Fact n.Prime := ⟨hn⟩
  have hne : (a : ZMod n) ≠ 0 := by
    rw [Ne, ZMod.natCast_eq_zero_iff]
    exact Nat.not_dvd_of_pos_of_lt ha han
  have hfermat : (a : ZMod n) ^ (2 ^ s * d) = 1 := by
    rw [hsplit]
    exact ZMod.pow_card_sub_one_eq_one hne
  rw [← Bool.not_eq_true, tryComposite_iff]
  rintro ⟨hone, hneg⟩
  rcases pow_eq_one_cases s hfermat with hd | ⟨i, hi, hroot⟩
  · rw [← Nat.cast_pow, natCast_eq_one_iff hn.one_lt] at hd
    exact hone hd
  · rw [← Nat.cast_pow, natCast_eq_neg_one_iff hn.pos] at hroot
    exact hneg i hi hroot

/-- **a prime passes**: it is never rejected, whichever the bases in `[2, n)`; the loop ends for
every odd `n`, and what a base shows to be composite is -/
theorem prime_passes (n : ℕ) :
    (n.Prime → ∀ randrange : ℕ → ℕ, (∀ i, 2 < n → 2 ≤ randrange i ∧ randrange i < n) →
      isProbablePrime n randrange = some true) ∧
    (3 ≤ n → n % 2 = 1 → ∃ s d, splitLoop 0 (n - 1) = some (s, d) ∧ 2 ^ s * d = n - 1 ∧
      d % 2 = 1 ∧ ∀ a, 2 ≤ a → a < n → tryComposite n s d a = true → ¬ n.Prime) := by
  constructor
  · intro hn randrange hbases
    unfold isProbablePrime
    rw [if_neg (Nat.not_lt.mpr hn.two_le)]
    rcases hn.eq_two_or_odd with h2 | hodd
    · rw [if_pos h2]
    · have h2 : n ≠ 2 := by omega
      have hlt : 2 < n := lt_of_le_of_ne hn.two_le h2.symm
      obtain ⟨s, d, hloop, hprod, -⟩ := splitLoop_pred hn.two_le
      have hany : ((List.range mrptNumTrials).any fun i => tryComposite n s d (randrange i)) =
          false := by
        rw [List.any_eq_false]
        intro i _
        obtain ⟨hge, hlt'⟩ := hbases i hlt
        rw [tryComposite_prime hn hprod (by omega) hlt']
        exact Bool.false_ne_true
      rw [if_neg h2, if_neg (by omega), hloop]
      dsimp only
      rw [if_pos hprod, hany]
      rfl
  · intro h3 _
    obtain ⟨s, d, hloop, hprod, hodd⟩ := splitLoop_pred (Nat.le_of_lt h3)
    refine ⟨s, d, hloop, hprod, hodd, fun a ha han hcomposite hn => ?_⟩
    rw [tryComposite_prime hn hprod (by omega) han] at hcomposite
    cases hcomposite

theorem prime_passes_thirteen :
    isProbablePrime 13 (fun i => 2 + i % 11) = some true ∧
    ∃ s d, splitLoop 0 12 = some (s, d) ∧ 2 ^ s * d = 12 ∧ d % 2 = 1 ∧
      ∀ a, 2 ≤ a → a < 13 → tryComposite 13 s d a = true → ¬ Nat.Prime 13 :=
  ⟨(prime_passes 13).1 (by norm_num) _ (fun i _ => by
    have hlt := Nat.mod_lt i (y := 11) (by decide)
    omega), (prime_passes 13).2 (by decide) rfl⟩

end MillerRabin
