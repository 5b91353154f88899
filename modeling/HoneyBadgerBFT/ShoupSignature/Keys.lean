import HoneyBadgerBFT.Library.Bytes
import HoneyBadgerBFT.Library.Interpolation

/-!
# Threshold signatures over RSA

The functions of `shoup`, over the integers.  The functions `powmod` and `divm` of `gmpy2`, with their
documented behaviour, and the digest `SHA256` of `Crypto.Hash` are a parameter (`Packages`).  `none` is
an exception.  The two primes of the dealer, its public exponent and its random choices are arguments.

* `gcd_natCast`, `egcd_spec`  the two Euclidean loops;
* `lambdaS_spec`              the weights of a set of shares: no assertion of `lambdaS` fails;
* `dealer_spec`               the keys are the values of one polynomial.
-/

namespace Shoup

/-! ## the modules that are used -/

/-- two functions of `gmpy2`, and `SHA256.new(x).digest()` of `Crypto.Hash` -/
structure Packages where
  powmod : ℤ → ℤ → ℤ → Option ℤ
  divm : ℤ → ℤ → ℤ → Option ℤ
  digest : Bytes → Bytes
  /-- `(x ** y) % m` -/
  powmod_nonneg : ∀ x y m, 1 < m → 0 ≤ y → powmod x y m = some (x ^ y.toNat % m)
  /-- for a negative exponent a power of the inverse, if there is one -/
  powmod_neg : ∀ x y m, 1 < m → y < 0 → IsCoprime x m →
    ∃ r, powmod x y m = some r ∧ 0 ≤ r ∧ r < m ∧ r * x ^ (-y).toNat % m = 1
  /-- `x` such that `b * x == a` modulo `m` -/
  divm_spec : ∀ a b m, 1 < m → IsCoprime b m →
    ∃ x, divm a b m = some x ∧ 0 ≤ x ∧ x < m ∧ b * x % m = a % m

/-- `hash(x)`: the digest as a number -/
def hash (E : Packages) (x : Bytes) : ℕ := (E.digest x).foldl (fun n b => n * 256 + b.toNat) 0

theorem natAbs_fmod_lt (a : ℤ) {b : ℤ} (hb : b ≠ 0) : (a.fmod b).natAbs < b.natAbs := by
  have hlt := Int.emod_lt a hb
  have hge := Int.emod_nonneg a hb
  rw [Int.fmod_eq_emod]
  split
  · omega
  · next h =>
    rw [not_or] at h
    have hne : a % b ≠ 0 := fun h0 => h.2 (Int.dvd_of_emod_eq_zero h0)
    omega

/-- `fractions.gcd(a, b)` -/
def gcd (a b : ℤ) : ℤ := if b = 0 then a else gcd b (a.fmod b)
termination_by b.natAbs
decreasing_by exact natAbs_fmod_lt a ‹_›

/-- the loop of `egcd(a, b)` -/
def egcdLoop (a b x y u v : ℤ) : ℤ × ℤ × ℤ :=
  if a = 0 then (b, x, y)
  else egcdLoop (b.fmod a) a u v (x - u * b.fdiv a) (y - v * b.fdiv a)
termination_by a.natAbs
decreasing_by exact natAbs_fmod_lt b ‹_›

def egcd (a b : ℤ) : ℤ × ℤ × ℤ := egcdLoop a b 0 1 1 0

theorem gcd_natCast (a b : ℕ) : gcd a b = Nat.gcd a b := by
  induction b using Nat.strong_induction_on generalizing a with
  | _ b ih =>
    rw [gcd]
    split
    · next h0 =>
      rw [Nat.cast_eq_zero.mp h0, Nat.gcd_zero_right]
    · next h0 =>
      have hpos : 0 < b := Nat.pos_of_ne_zero fun h => h0 (Nat.cast_eq_zero.mpr h)
      rw [← Int.ofNat_fmod, ih _ (Nat.mod_lt a hpos), Nat.gcd_comm, ← Nat.gcd_rec, Nat.gcd_comm]

/-- the state of the loop: `a` and `b` are the combinations of `a₀` and `b₀` with the coefficients
`u`, `v` and `x`, `y` -/
theorem egcdLoop_spec {a₀ b₀ : ℤ} (a b : ℕ) (x y u v : ℤ) (ha : u * a₀ + v * b₀ = a)
    (hb : x * a₀ + y * b₀ = b) : ∃ x' y', egcdLoop a b x y u v = ((Nat.gcd a b : ℤ), x', y') ∧
      x' * a₀ + y' * b₀ = (Nat.gcd a b : ℤ) := by
  induction a using Nat.strong_induction_on generalizing b x y u v with
  | _ a ih =>
    rw [egcdLoop]
    split
    · next h0 =>
      rw [Nat.cast_eq_zero.mp h0, Nat.gcd_zero_left]
      exact ⟨x, y, rfl, hb⟩
    · next h0 =>
      have hpos : 0 < a := Nat.pos_of_ne_zero fun h => h0 (Nat.cast_eq_zero.mpr h)
      rw [Nat.gcd_rec, ← Int.ofNat_fmod]
      refine ih _ (Nat.mod_lt b hpos) a _ _ _ _ ?_ ha
      rw [Int.ofNat_fmod, Int.fmod_def, ← ha, ← hb]
      ring

/-- **the identity of Bézout** -/
theorem egcd_spec (a b : ℕ) : ∃ x y, egcd a b = ((Nat.gcd a b : ℤ), x, y) ∧
    x * a + y * b = (Nat.gcd a b : ℤ) :=
  egcdLoop_spec a b 0 1 1 0 (by ring) (by ring)

/-! ## the keys -/

structure PublicKey where
  n : ℤ
  e : ℤ
  l : ℕ
  k : ℕ
  VK : ℤ
  VKs : List ℤ

structure PrivateKey extends PublicKey where
  SK : ℤ
  i : ℤ

/-- the shares of a signature: a mapping from idx -> sig -/
structure Sigs where
  items : List (ℤ × ℤ)
  nodup : (items.map Prod.fst).Nodup

namespace PublicKey

/-- `Delta()` -/
def Delta (PK : PublicKey) : ℤ := PK.l.factorial

/-- `lambdaS(S, i, j)` -/
def lambdaS (PK : PublicKey) (S : Finset ℤ) (i j : ℤ) : Option ℤ :=
  if S.card = PK.k ∧ ∀ jj ∈ S, 1 ≤ jj ∧ jj ≤ PK.l then
    if i ∉ S ∧ (0 ≤ i ∧ i ≤ PK.l) ∧ j ∈ S ∧ 1 ≤ j ∧ j ≤ PK.l then
      let rest := (S.sort (· ≤ ·)).filter (· ≠ j)
      let num := (rest.map fun jj => i - jj).foldl (· * ·) 1
      let den := (rest.map fun jj => j - jj).foldl (· * ·) 1
      if (PK.Delta * num).fmod den = 0 then some ((PK.Delta * num).fdiv den) else none
    else none
  else none

variable (E : Packages)

/-- the loop over the shares: one more `idx, sig` for `w` -/
def combineStep (PK : PublicKey) (S : Finset ℤ) (w : ℤ) (s : ℤ × ℤ) : Option ℤ := do
  let lam ← PK.lambdaS S 0 s.1
  let power ← E.powmod s.2 (2 * lam) PK.n
  some ((w * power).fmod PK.n)

/-- `combine_shares(m, sigs)` -/
def combineShares (PK : PublicKey) (m : Bytes) (sigs : Sigs) : Option ℤ :=
  let S := (sigs.items.map Prod.fst).toFinset
  if ∀ i ∈ S, 1 ≤ i ∧ i ≤ PK.l then do
    let x : ℤ := hash E m
    let w ← sigs.items.foldlM (combineStep E PK S) 1
    let ep := 4 * PK.Delta ^ 2
    if gcd ep PK.e = 1 then
      let (_, a, b) := egcd ep PK.e
      let left ← E.powmod w a PK.n
      let right ← E.powmod x b PK.n
      some ((left * right).fmod PK.n)
    else none
  else none

/-- `verify_signature(sig, m)` -/
def verifySignature (PK : PublicKey) (sig : ℤ) (m : Bytes) : Option Bool := do
  let power ← E.powmod sig PK.e PK.n
  if (hash E m : ℤ) = power then some true else none

/-- the product of the differences, as `reduce` takes it -/
theorem prod_rest (S : Finset ℤ) (i j : ℤ) :
    (((S.sort (· ≤ ·)).filter (· ≠ j)).map fun jj => i - jj).foldl (· * ·) 1 =
      ∏ jj ∈ S.erase j, (i - jj) := by
  have hnodup := (S.sort_nodup (· ≤ ·)).filter (fun jj => decide (jj ≠ j))
  have hset : ((S.sort (· ≤ ·)).filter (· ≠ j)).toFinset = S.erase j := by
    ext jj
    simp [and_comm]
  rw [← List.prod_eq_foldl, ← List.prod_toFinset _ hnodup, hset]

/-- **the weights**: no assertion of `lambdaS` fails, and the division is exact -/
theorem lambdaS_spec (PK : PublicKey) {S : Finset ℤ} (hcard : S.card = PK.k)
    (hS : ∀ jj ∈ S, 1 ≤ jj ∧ jj ≤ PK.l) {i j : ℤ} (hi : i ∉ S) (hil : 0 ≤ i ∧ i ≤ PK.l)
    (hj : j ∈ S) : ∃ c, PK.lambdaS S i j = some c ∧
      c * ∏ jj ∈ S.erase j, (j - jj) = PK.Delta * ∏ jj ∈ S.erase j, (i - jj) := by
  have hsub : S ⊆ Finset.Icc 1 (PK.l : ℤ) := fun jj h => Finset.mem_Icc.mpr (hS jj h)
  have hdvd : ∏ jj ∈ S.erase j, (j - jj) ∣ PK.Delta * ∏ jj ∈ S.erase j, (i - jj) :=
    (prod_sub_dvd_factorial hsub hj).mul_right _
  have hmod := Int.fmod_eq_zero_of_dvd hdvd
  refine ⟨_, ?_, Int.fdiv_mul_cancel_of_fmod_eq_zero hmod⟩
  unfold lambdaS
  rw [if_pos ⟨hcard, hS⟩, if_pos ⟨hi, hil, hj, hS j hj⟩]
  dsimp only
  rw [prod_rest, prod_rest, if_pos hmod]

/-- the value of `combine_shares` from those that it computes on the way -/
theorem combineShares_eq {E : Packages} {PK : PublicKey} {m : Bytes} {sigs : Sigs} {S : Finset ℤ}
    (hkeys : (sigs.items.map Prod.fst).toFinset = S) (hS : ∀ i ∈ S, 1 ≤ i ∧ i ≤ PK.l)
    {w a b left right : ℤ} (hloop : sigs.items.foldlM (combineStep E PK S) 1 = some w)
    (hgcd : gcd (4 * PK.Delta ^ 2) PK.e = 1) (hegcd : egcd (4 * PK.Delta ^ 2) PK.e = (1, a, b))
    (hleft : E.powmod w a PK.n = some left) (hright : E.powmod (hash E m) b PK.n = some right) :
    combineShares E PK m sigs = some ((left * right).fmod PK.n) := by
  unfold combineShares
  dsimp only
  rw [hkeys, if_pos hS, hloop]
  dsimp only [Option.bind_eq_bind, Option.bind_some]
  rw [if_pos hgcd, hegcd]
  dsimp only
  rw [hleft]
  dsimp only [Option.bind_some]
  rw [hright]
  rfl

end PublicKey

namespace PrivateKey

/-- `ShoupPrivateKey(n, e, l, k, VK, VKs, SK, i)` -/
def new (PK : PublicKey) (SK i : ℤ) : Option PrivateKey :=
  if 1 ≤ i ∧ i ≤ PK.l then some { PK with SK := SK, i := i } else none

/-- `sign(m)`: a signature share on `m` -/
def sign (E : Packages) (key : PrivateKey) (m : Bytes) : Option ℤ :=
  E.powmod (hash E m) (2 * key.Delta * key.SK) key.n

end PrivateKey

/-! ## the dealer -/

/-- the loop of `f(x)` -/
def evalLoop (x : ℤ) : List ℤ → ℤ → ℤ → ℤ
  | [], y, _ => y
  | coeff :: a, y, xx => evalLoop x a (y + coeff * xx) (xx * x)

/-- `random_Qn(n)` for the random number `x` -/
def randomQn (n x : ℤ) : ℤ := (x ^ 2).fmod n

/-- `dealer(players, k)` for the primes `p` and `q`, the public exponent `e`, the random
coefficients `rest` and the random number `x` -/
def dealer (E : Packages) (p q : ℤ) (players k : ℕ) (e : ℤ) (rest : List ℤ) (x : ℤ) :
    Option (PublicKey × List PrivateKey) := do
  let n := p * q
  let m := ((p - 1).fdiv 2 * (q - 1)).fdiv 2
  let d ← E.divm 1 e m
  let a := d :: rest
  if (d * e).fmod m = 1 ∧ a.length = k then do
    let f := fun x => evalLoop x a 0 1
    let SKs := (List.range' 1 players).map fun i : ℕ => f i
    let v := randomQn n x
    let VKs ← SKs.mapM fun SK => E.powmod v SK n
    let PK : PublicKey := ⟨n, e, players, k, v, VKs⟩
    let keys ← (List.range' 1 players).mapM fun i : ℕ => PrivateKey.new PK (f i) i
    let S : Finset ℤ := ((List.range' 1 k).map fun j : ℕ => (j : ℤ)).toFinset
    let terms ← (List.range' 1 k).mapM fun j : ℕ => (PK.lambdaS S 0 j).map (· * f j)
    if (PK.Delta * f 0).fmod m = terms.sum.fmod m then some (PK, keys) else none
  else none

theorem evalLoop_eq (x : ℤ) (a : List ℤ) : ∀ y xx,
    evalLoop x a y xx = y + xx * (ofCoeffs a).eval x := by
  induction a with
  | nil => simp [evalLoop, ofCoeffs]
  | cons c a ih =>
    intro y xx
    rw [evalLoop, ih, ofCoeffs]
    simp only [Polynomial.eval_add, Polynomial.eval_mul, Polynomial.eval_C, Polynomial.eval_X]
    ring

/-- the secret key of the party `i` -/
def secretKey (a : List ℤ) (i : ℤ) : ℤ := evalLoop i a 0 1

theorem secretKey_eq (a : List ℤ) (i : ℤ) : secretKey a i = (ofCoeffs a).eval i := by
  rw [secretKey, evalLoop_eq, zero_add, one_mul]

/-- **the secret**: the weights of `k` indices, with which the values of a polynomial give the value
at 0, times `Delta` -/
theorem PublicKey.exists_weights (PK : PublicKey) {S : Finset ℤ} (hcard : S.card = PK.k)
    (hS : ∀ jj ∈ S, 1 ≤ jj ∧ jj ≤ PK.l) : ∃ lam : ℤ → ℤ,
      (∀ j ∈ S, PK.lambdaS S 0 j = some (lam j)) ∧
      ∀ a : List ℤ, a.length = PK.k →
        ∑ j ∈ S, lam j * secretKey a j = PK.Delta * secretKey a 0 := by
  have h0 : (0 : ℤ) ∉ S := fun h => absurd (hS 0 h).1 (by decide)
  have hweights : ∀ j ∈ S, ∃ c, PK.lambdaS S 0 j = some c ∧
      c * ∏ jj ∈ S.erase j, (j - jj) = PK.Delta * ∏ jj ∈ S.erase j, (0 - jj) := fun j hj =>
    PK.lambdaS_spec hcard hS h0 ⟨le_rfl, Int.natCast_nonneg _⟩ hj
  choose! lam hlam hweight using hweights
  refine ⟨lam, hlam, fun a ha => ?_⟩
  have hdegree : (ofCoeffs a).degree < S.card := by
    rw [hcard, ← ha]
    exact degree_ofCoeffs a
  simp only [secretKey_eq]
  exact sum_scaled_eval hdegree hweight

/-- the key of the party `i` -/
def PublicKey.privateKey (PK : PublicKey) (a : List ℤ) (i : ℤ) : PrivateKey :=
  { PK with SK := secretKey a i, i := i }

theorem new_eq (PK : PublicKey) (a : List ℤ) :
    ((List.range' 1 PK.l).mapM fun i : ℕ => PrivateKey.new PK (secretKey a i) i) =
      some ((List.range' 1 PK.l).map fun i : ℕ => PK.privateKey a i) := by
  refine mapM_eq_some _ fun i hi => ?_
  rw [List.mem_range'_1] at hi
  exact if_pos ⟨by omega, by omega⟩

/-- **the keys** -/
theorem dealer_spec {E : Packages} {p q : ℤ} {players k : ℕ} {e : ℤ} {rest : List ℤ} {x : ℤ}
    {PK : PublicKey} {keys : List PrivateKey}
    (h : dealer E p q players k e rest x = some (PK, keys)) : ∃ d,
      (d * e).fmod (((p - 1).fdiv 2 * (q - 1)).fdiv 2) = 1 ∧ (d :: rest).length = k ∧
      PK.n = p * q ∧ PK.e = e ∧ PK.l = players ∧ PK.k = k ∧
      keys = (List.range' 1 players).map fun i : ℕ => PK.privateKey (d :: rest) i := by
  unfold dealer at h
  obtain ⟨d, -, h⟩ := Option.bind_eq_some_iff.mp h
  dsimp only at h
  split at h
  · next hd =>
    obtain ⟨VKs, -, h⟩ := Option.bind_eq_some_iff.mp h
    obtain ⟨keys', hkeys, h⟩ := Option.bind_eq_some_iff.mp h
    obtain ⟨terms, -, h⟩ := Option.bind_eq_some_iff.mp h
    split at h
    · obtain ⟨rfl, rfl⟩ := Prod.mk.inj (Option.some.inj h)
      refine ⟨d, hd.1, hd.2, rfl, rfl, rfl, rfl, ?_⟩
      exact Option.some.inj (hkeys.symm.trans (new_eq _ (d :: rest)))
    · cases h
  · cases h

end Shoup
