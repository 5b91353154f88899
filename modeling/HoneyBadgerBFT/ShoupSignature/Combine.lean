import HoneyBadgerBFT.Library.Residues
import HoneyBadgerBFT.Library.Sha256
import HoneyBadgerBFT.ShoupSignature.Keys
import Mathlib.Data.Nat.Prime.Factorial
import Mathlib.Tactic.ReduceModChar

/-!
# Threshold signatures over RSA: what the shares combine to

For two safe primes the numbers that are computed are powers of the hash `x` in the units modulo
`n`.  The shares of `k` parties combine to `w = x ^ (4 Delta² d)`, and the extended Euclidean
algorithm for `4 Delta²` and `e` takes the factor away.

* `dealer_eq`               the assertions of the dealer hold;
* `sign_spec`, `loop_spec`  the powers of `x` that the parties sign with, and that `w` is;
* `combineShares_verifies`  the combination is a signature that is accepted.
-/

namespace Shoup

/-- two safe primes, a threshold, an odd prime above the number of the parties, and the coefficients
of a polynomial whose constant term is the secret exponent -/
structure Parameters where
  p' : ℕ
  q' : ℕ
  prime_p' : p'.Prime
  prime_q' : q'.Prime
  prime_p : (2 * p' + 1).Prime
  prime_q : (2 * q' + 1).Prime
  distinct : p' ≠ q'
  l : ℕ
  k : ℕ
  one_le_k : 1 ≤ k
  k_le_l : k ≤ l
  e : ℕ
  prime_e : e.Prime
  odd_e : e % 2 = 1
  l_lt_e : l < e
  coprime_e : e.Coprime (p' * q')
  d : ℤ
  inverse_d : d * e ≡ 1 [ZMOD (p' * q' : ℕ)]
  rest : List ℤ
  length_rest : (d :: rest).length = k

/-! ## powers of a unit -/

/-- **`powmod`** of a number that is a unit modulo `n`: any exponent will do -/
theorem Packages.powmod_unit (E : Packages) {n : ℕ} (hn : 1 < n) {x : ℤ} {u : (ZMod n)ˣ}
    (hx : (x : ZMod n) = u) (y : ℤ) : ∃ r, E.powmod x y n = some r ∧
      (r : ZMod n) = ((u ^ y : (ZMod n)ˣ) : ZMod n) := by
  have hn' : (1 : ℤ) < n := by exact_mod_cast hn
  rcases le_or_gt 0 y with hy | hy
  · obtain ⟨k, rfl⟩ := Int.eq_ofNat_of_zero_le hy
    refine ⟨_, E.powmod_nonneg x k n hn' hy, ?_⟩
    rw [ZMod.intCast_mod, Int.toNat_natCast, Int.cast_pow, hx, zpow_natCast,
      Units.val_pow_eq_pow_val]
  · have hunit : IsUnit (x : ZMod n) := hx ▸ u.isUnit
    rw [ZMod.coe_int_isUnit_iff_isCoprime] at hunit
    obtain ⟨r, hr, -, -, hinv⟩ := E.powmod_neg x y n hn' hy hunit.symm
    refine ⟨r, hr, ?_⟩
    have hcast : (r : ZMod n) * (u ^ (-y).toNat : (ZMod n)ˣ) = 1 := by
      have h := congrArg (fun z : ℤ => (z : ZMod n)) hinv
      rwa [ZMod.intCast_mod, Int.cast_mul, Int.cast_pow, hx, Int.cast_one,
        ← Units.val_pow_eq_pow_val] at h
    have hneg : (u ^ y : (ZMod n)ˣ) = (u ^ (-y).toNat)⁻¹ := by
      rw [← zpow_natCast, Int.toNat_of_nonneg (by omega), zpow_neg, inv_inv]
    rw [hneg]
    exact Units.eq_inv_of_mul_eq_one_left ((mul_comm _ _).trans hcast)

/-- **the loop over the shares** -/
theorem loop_spec {E : Packages} {PK : PublicKey} {n : ℕ} (hn : 1 < n) (hPK : PK.n = n) {S : Finset ℤ}
    {lam : ℤ → ℤ} {g : ℤ → (ZMod n)ˣ} (items : List (ℤ × ℤ))
    (hlam : ∀ s ∈ items, PK.lambdaS S 0 s.1 = some (lam s.1))
    (hg : ∀ s ∈ items, (s.2 : ZMod n) = g s.1) : ∀ (w : ℤ) (v : (ZMod n)ˣ), (w : ZMod n) = v →
      ∃ w', items.foldlM (PK.combineStep E S) w = some w' ∧
        (w' : ZMod n) =
          (v * ((items.map Prod.fst).map fun i => g i ^ (2 * lam i)).prod : (ZMod n)ˣ) := by
  induction items with
  | nil =>
    intro w v hw
    exact ⟨w, rfl, by rw [hw]; simp⟩
  | cons s items ih =>
    intro w v hw
    obtain ⟨r, hr, hpower⟩ := E.powmod_unit hn (hg s List.mem_cons_self) (2 * lam s.1)
    have hstep : PK.combineStep E S w s = some ((w * r).fmod n) := by
      rw [PublicKey.combineStep, hlam s List.mem_cons_self, hPK]
      dsimp only [Option.bind_eq_bind, Option.bind_some]
      rw [hr]
      rfl
    have hw' : (((w * r).fmod n : ℤ) : ZMod n) = (v * g s.1 ^ (2 * lam s.1) : (ZMod n)ˣ) := by
      rw [Int.fmod_eq_emod_of_nonneg _ (Int.natCast_nonneg n), ZMod.intCast_mod, Int.cast_mul, hw,
        hpower, Units.val_mul]
    obtain ⟨w', hloop, heq⟩ := ih (fun s hs => hlam s (List.mem_cons_of_mem _ hs))
      (fun s hs => hg s (List.mem_cons_of_mem _ hs)) _ _ hw'
    refine ⟨w', ?_, ?_⟩
    · rw [List.foldlM_cons, hstep]
      exact hloop
    · rw [heq, List.map_cons, List.map_cons, List.prod_cons, mul_assoc]

/-! ## the keys -/

namespace Parameters
variable (K : Parameters)

def n : ℕ := (2 * K.p' + 1) * (2 * K.q' + 1)

/-- the coefficients -/
def a : List ℤ := K.d :: K.rest

def publicKey (VK : ℤ) (VKs : List ℤ) : PublicKey := ⟨K.n, K.e, K.l, K.k, VK, VKs⟩

theorem one_lt_n : 1 < K.n :=
  Nat.one_lt_mul_iff.mpr ⟨K.prime_p.pos, K.prime_q.pos, .inl K.prime_p.one_lt⟩

theorem secretKey_zero : secretKey K.a 0 = K.d := by rw [secretKey_eq, a, eval_zero_ofCoeffs]

variable {K}

/-- the secret exponent is the inverse of `e` for the squares -/
theorem zpow_secret (u : (ZMod K.n)ˣ) (c : ℤ) : u ^ (2 * c * (K.d * K.e)) = u ^ (2 * c) := by
  obtain ⟨t, ht⟩ := K.inverse_d.symm.dvd
  have hne : 2 * K.p' + 1 ≠ 2 * K.q' + 1 := fun h => K.distinct (by omega)
  have horder : u ^ (2 * (K.p' * K.q')) = 1 := pow_product_eq_one K.prime_p K.prime_q hne u
  have hexp : 2 * c * (K.d * K.e) = 2 * c + ((2 * (K.p' * K.q') : ℕ) : ℤ) * (t * c) := by
    rw [sub_eq_iff_eq_add.mp ht]
    push_cast
    ring
  rw [hexp, zpow_add, zpow_mul u ((2 * (K.p' * K.q') : ℕ) : ℤ), zpow_natCast, horder, one_zpow,
    mul_one]

/-- the assertion `gcd(ep, e) == 1` -/
theorem coprime_ep : Nat.Coprime (4 * K.l.factorial ^ 2) K.e := by
  rw [Nat.coprime_comm, K.prime_e.coprime_iff_not_dvd, K.prime_e.dvd_mul]
  rintro (h4 | hfactorial)
  · have h2 : K.e ∣ 2 := K.prime_e.dvd_of_dvd_pow (n := 2) h4
    have hle := Nat.le_of_dvd two_pos h2
    have hodd := K.odd_e
    have htwo := K.prime_e.two_le
    omega
  · have hle := (Nat.Prime.dvd_factorial K.prime_e).mp (K.prime_e.dvd_of_dvd_pow hfactorial)
    exact absurd hle (Nat.not_le.mpr K.l_lt_e)

end Parameters

theorem evalLoop_nonneg {x : ℤ} (hx : 0 ≤ x) {a : List ℤ} (ha : ∀ c ∈ a, 0 ≤ c) : ∀ {y xx : ℤ},
    0 ≤ y → 0 ≤ xx → 0 ≤ evalLoop x a y xx := by
  induction a with
  | nil => exact fun hy _ => hy
  | cons c a ih =>
    intro y xx hy hxx
    rw [List.forall_mem_cons] at ha
    exact ih ha.2 (add_nonneg hy (mul_nonneg ha.1 hxx)) (mul_nonneg hxx hx)

/-- the check of the dealer, on the first `k` indices -/
theorem dealer_check (K : Parameters) (VK : ℤ) (VKs : List ℤ) : ∃ terms,
    ((List.range' 1 K.k).mapM fun j : ℕ => ((K.publicKey VK VKs).lambdaS
      ((List.range' 1 K.k).map fun j : ℕ => (j : ℤ)).toFinset 0 j).map (· * secretKey K.a j)) =
      some terms ∧ terms.sum = (K.publicKey VK VKs).Delta * secretKey K.a 0 := by
  let PK := K.publicKey VK VKs
  let indices : List ℤ := (List.range' 1 K.k).map fun j : ℕ => (j : ℤ)
  have hnodup : indices.Nodup :=
    List.Nodup.map Nat.cast_injective (List.nodup_range' (s := 1) (n := K.k))
  have hcard : indices.toFinset.card = PK.k := by
    rw [List.toFinset_card_of_nodup hnodup, List.length_map, List.length_range']
    rfl
  have hrange : ∀ j ∈ indices.toFinset, 1 ≤ j ∧ j ≤ PK.l := by
    intro j hj
    obtain ⟨i, hi, rfl⟩ := List.mem_map.mp (List.mem_toFinset.mp hj)
    rw [List.mem_range'_1] at hi
    have hle : K.k ≤ PK.l := K.k_le_l
    omega
  obtain ⟨lam, hlam, hsum⟩ := PK.exists_weights hcard hrange
  refine ⟨(List.range' 1 K.k).map fun j : ℕ => lam j * secretKey K.a j,
    mapM_eq_some _ fun j hj => ?_, ?_⟩
  · have hlamj := hlam j (List.mem_toFinset.mpr (List.mem_map_of_mem hj))
    rw [hlamj]
    rfl
  · rw [← hsum K.a K.length_rest, List.sum_toFinset _ hnodup, List.map_map]
    rfl

/-- **the assertions of the dealer** hold -/
theorem dealer_eq (E : Packages) (K : Parameters) (hdivm : E.divm 1 K.e (K.p' * K.q' : ℕ) = some K.d)
    (hnonneg : ∀ c ∈ K.a, 0 ≤ c) (x : ℤ) : ∃ VK VKs,
      dealer E (2 * K.p' + 1) (2 * K.q' + 1) K.l K.k K.e K.rest x =
        some (K.publicKey VK VKs,
          (List.range' 1 K.l).map fun i : ℕ => (K.publicKey VK VKs).privateKey K.a i) := by
  have hn : (2 * (K.p' : ℤ) + 1) * (2 * K.q' + 1) = K.n := by
    rw [Parameters.n]
    push_cast
    rfl
  have hm : (((2 * (K.p' : ℤ) + 1) - 1).fdiv 2 * (2 * K.q' + 1 - 1)).fdiv 2 =
      (K.p' * K.q' : ℕ) := by
    rw [add_sub_cancel_right, add_sub_cancel_right, Int.mul_fdiv_cancel_left _ two_ne_zero,
      mul_left_comm, Int.mul_fdiv_cancel_left _ two_ne_zero, Nat.cast_mul]
  have hone : (1 : ℤ) < (K.p' * K.q' : ℕ) := by
    exact_mod_cast Nat.one_lt_mul_iff.mpr ⟨K.prime_p'.pos, K.prime_q'.pos, .inl K.prime_p'.one_lt⟩
  have hd : (K.d * K.e).fmod (K.p' * K.q' : ℕ) = 1 := by
    rw [Int.fmod_eq_emod_of_nonneg _ (Int.natCast_nonneg _), K.inverse_d,
      Int.emod_eq_of_lt zero_le_one hone]
  obtain ⟨VKs, hVKs⟩ : ∃ VKs, (((List.range' 1 K.l).map fun i : ℕ => secretKey K.a i).mapM
      fun SK => E.powmod (randomQn K.n x) SK K.n) = some VKs := by
    refine ⟨_, mapM_eq_some (k := fun SK => randomQn K.n x ^ SK.toNat % K.n) _ fun SK hSK => ?_⟩
    obtain ⟨i, -, rfl⟩ := List.mem_map.mp hSK
    exact E.powmod_nonneg _ _ _ (by exact_mod_cast K.one_lt_n)
      (evalLoop_nonneg (Int.natCast_nonneg i) hnonneg le_rfl zero_le_one)
  obtain ⟨terms, hterms, hsum⟩ := dealer_check K (randomQn K.n x) VKs
  have hkeys := new_eq (K.publicKey (randomQn K.n x) VKs) K.a
  refine ⟨randomQn K.n x, VKs, ?_⟩
  unfold dealer
  dsimp only
  rw [hm, hn, hdivm]
  dsimp only [Option.bind_eq_bind, Option.bind_some]
  rw [if_pos ⟨hd, K.length_rest⟩]
  refine Option.bind_eq_some_iff.mpr ⟨VKs, hVKs, Option.bind_eq_some_iff.mpr ⟨_, hkeys,
    Option.bind_eq_some_iff.mpr ⟨terms, hterms, ?_⟩⟩⟩
  exact if_pos (congrArg (fun z => Int.fmod z (K.p' * K.q' : ℕ)) hsum.symm)

/-! ## signatures -/

/-- the shares give the secret in the exponent -/
theorem prod_shares {K : Parameters} (u : (ZMod K.n)ˣ) {Delta : ℤ} {lam : ℤ → ℤ} {S : Finset ℤ}
    (hsum : ∑ i ∈ S, lam i * secretKey K.a i = Delta * secretKey K.a 0) {l : List ℤ}
    (hl : l.Nodup) (hS : l.toFinset = S) :
    (l.map fun i => (u ^ (2 * Delta * secretKey K.a i)) ^ (2 * lam i)).prod =
      u ^ (4 * Delta ^ 2 * K.d) := by
  have hpow : ∀ i, (u ^ (2 * Delta * secretKey K.a i)) ^ (2 * lam i) =
      u ^ (4 * Delta * (lam i * secretKey K.a i)) := by
    intro i
    rw [← zpow_mul]
    congr 1
    ring
  rw [← List.prod_toFinset _ hl, hS]
  simp only [hpow]
  rw [prod_zpow_eq, ← Finset.mul_sum, hsum, K.secretKey_zero]
  congr 1
  ring

/-- the extended Euclidean algorithm takes the factor of the secret away -/
theorem root_of_bezout {K : Parameters} (u : (ZMod K.n)ˣ) {Delta a b : ℤ}
    (hbezout : a * (4 * Delta ^ 2) + b * K.e = 1) :
    ((u ^ (4 * Delta ^ 2 * K.d)) ^ a * u ^ b) ^ K.e = u := by
  have hexp : (4 * Delta ^ 2 * K.d * a + b) * K.e =
      2 * (2 * Delta ^ 2 * a) * (K.d * K.e) + b * K.e := by ring
  have hone : 2 * (2 * Delta ^ 2 * a) + b * K.e = 1 := by
    rw [← hbezout]
    ring
  rw [← zpow_mul, ← zpow_add, ← zpow_natCast, ← zpow_mul, hexp, zpow_add, K.zpow_secret,
    ← zpow_add, hone, zpow_one]

section
variable (E : Packages) {K : Parameters} (VK : ℤ) (VKs : List ℤ) {m : Bytes}
  {u : (ZMod K.n)ˣ} (hu : ((hash E m : ℤ) : ZMod K.n) = u)
include hu

/-- **a share** is a power of the hash -/
theorem sign_spec (i : ℤ) : ∃ sig, ((K.publicKey VK VKs).privateKey K.a i).sign E m = some sig ∧
    (sig : ZMod K.n) =
      (u ^ (2 * (K.publicKey VK VKs).Delta * secretKey K.a i) : (ZMod K.n)ˣ) :=
  E.powmod_unit K.one_lt_n hu _

/-- **the combination** of `k` shares is a root of the hash -/
theorem combineShares_spec {S : Finset ℤ} (hS : ∀ i ∈ S, 1 ≤ i ∧ i ≤ K.l) (hcard : S.card = K.k)
    {sigs : Sigs} (hkeys : (sigs.items.map Prod.fst).toFinset = S)
    (hsigs : ∀ s ∈ sigs.items, ((K.publicKey VK VKs).privateKey K.a s.1).sign E m = some s.2) :
    ∃ y, (K.publicKey VK VKs).combineShares E m sigs = some y ∧
      (y : ZMod K.n) ^ K.e = ((hash E m : ℤ) : ZMod K.n) := by
  let PK := K.publicKey VK VKs
  obtain ⟨lam, hlam, hsum⟩ := PK.exists_weights hcard hS
  have hmem : ∀ s ∈ sigs.items, s.1 ∈ S := fun s hs => by
    rw [← hkeys, List.mem_toFinset]
    exact List.mem_map_of_mem hs
  let g : ℤ → (ZMod K.n)ˣ := fun i => u ^ (2 * PK.Delta * secretKey K.a i)
  have hg : ∀ s ∈ sigs.items, (s.2 : ZMod K.n) = g s.1 := by
    intro s hs
    obtain ⟨sig, hsig, heq⟩ := sign_spec E VK VKs hu s.1
    obtain rfl := Option.some.inj (hsig.symm.trans (hsigs s hs))
    exact heq
  obtain ⟨w, hloop, hw⟩ := loop_spec (E := E) K.one_lt_n (show PK.n = K.n from rfl) sigs.items
    (fun s hs => hlam s.1 (hmem s hs)) hg 1 1 (by simp)
  rw [one_mul, prod_shares u (hsum K.a K.length_rest) sigs.nodup hkeys] at hw
  -- the factor `ep` and the public exponent have no common divisor
  have hep : 4 * PK.Delta ^ 2 = ((4 * K.l.factorial ^ 2 : ℕ) : ℤ) := by
    push_cast
    rfl
  have hgcd : gcd (4 * PK.Delta ^ 2) K.e = 1 := by
    rw [hep, gcd_natCast, K.coprime_ep]
    rfl
  obtain ⟨a, b, hegcd, hbezout⟩ := egcd_spec (4 * K.l.factorial ^ 2) K.e
  rw [K.coprime_ep, Nat.cast_one, ← hep] at hegcd hbezout
  obtain ⟨left, hleft, hleft'⟩ := E.powmod_unit K.one_lt_n hw a
  obtain ⟨right, hright, hright'⟩ := E.powmod_unit K.one_lt_n hu b
  refine ⟨(left * right).fmod K.n,
    PublicKey.combineShares_eq hkeys hS hloop hgcd hegcd hleft hright, ?_⟩
  rw [Int.fmod_eq_emod_of_nonneg _ (Int.natCast_nonneg _), ZMod.intCast_mod, Int.cast_mul, hleft',
    hright', ← Units.val_mul, ← Units.val_pow_eq_pow_val, root_of_bezout u hbezout, hu]

end

/-- **the signatures of any `k` parties combine** to one that is accepted; no assertion of `lambdaS`
fails on the way, and no share -/
theorem combineShares_verifies (E : Packages) (K : Parameters) (VK : ℤ) (VKs : List ℤ) (m : Bytes)
    (hlt : hash E m < K.n) (hcoprime : (hash E m).Coprime K.n) (S : Finset ℤ)
    (hS : ∀ i ∈ S, 1 ≤ i ∧ i ≤ K.l) (hcard : S.card = K.k) :
    (∀ i j, i ∉ S → 0 ≤ i ∧ i ≤ K.l → j ∈ S →
      ∃ c, (K.publicKey VK VKs).lambdaS S i j = some c) ∧
    (∀ i ∈ S, ∃ sig, ((K.publicKey VK VKs).privateKey K.a i).sign E m = some sig) ∧
    ∀ sigs : Sigs, (sigs.items.map Prod.fst).toFinset = S →
      (∀ s ∈ sigs.items, ((K.publicKey VK VKs).privateKey K.a s.1).sign E m = some s.2) →
      ∃ y, (K.publicKey VK VKs).combineShares E m sigs = some y ∧
        y ^ K.e ≡ hash E m [ZMOD K.n] ∧ (K.publicKey VK VKs).verifySignature E y m = some true := by
  have hu : ((hash E m : ℤ) : ZMod K.n) = ZMod.unitOfCoprime (hash E m) hcoprime := by
    rw [ZMod.coe_unitOfCoprime, Int.cast_natCast]
  refine ⟨fun i j hi hil hj => ?_, fun i _ => ?_, fun sigs hkeys hsigs => ?_⟩
  · obtain ⟨c, hc, -⟩ := (K.publicKey VK VKs).lambdaS_spec hcard hS hi hil hj
    exact ⟨c, hc⟩
  · obtain ⟨sig, hsig, -⟩ := sign_spec E VK VKs hu i
    exact ⟨sig, hsig⟩
  · obtain ⟨y, hy, hroot⟩ := combineShares_spec E VK VKs hu hS hcard hkeys hsigs
    have hmod : y ^ K.e ≡ hash E m [ZMOD K.n] := by
      rw [← ZMod.intCast_eq_intCast_iff, Int.cast_pow]
      exact hroot
    have hn : (1 : ℤ) < K.n := by exact_mod_cast K.one_lt_n
    have hpower : E.powmod y K.e K.n = some (hash E m : ℤ) := by
      rw [E.powmod_nonneg y K.e K.n hn (Int.natCast_nonneg _), Int.toNat_natCast, hmod,
        Int.emod_eq_of_lt (Int.natCast_nonneg _) (by exact_mod_cast hlt)]
    refine ⟨y, hy, hmod, ?_⟩
    unfold PublicKey.verifySignature
    rw [Parameters.publicKey]
    dsimp only [Option.bind_eq_bind]
    rw [hpower]
    exact if_pos rfl

theorem gcdA_mul {x m : ℤ} (h : IsCoprime x m) : Int.gcdA x m * x ≡ 1 [ZMOD m] := by
  have hbezout := Int.gcd_eq_gcd_ab x m
  rw [Int.isCoprime_iff_gcd_eq_one.mp h, Nat.cast_one] at hbezout
  rw [hbezout, mul_comm (Int.gcdA x m)]
  exact Int.modEq_add_fac_self.symm

/-- the inverse is that of the extended Euclidean algorithm -/
def Packages.exact : Packages where
  powmod x y m :=
    if 0 ≤ y then some (x ^ y.toNat % m)
    else if Int.gcd x m = 1 then some (Int.gcdA x m ^ (-y).toNat % m)
    else none
  divm a b m := if Int.gcd b m = 1 then some (a * Int.gcdA b m % m) else none
  digest := sha256
  powmod_nonneg x y m _ hy := if_pos hy
  powmod_neg x y m hm hy hcoprime := by
    have hgcd := Int.isCoprime_iff_gcd_eq_one.mp hcoprime
    refine ⟨_, by rw [if_neg (Int.not_le.mpr hy), if_pos hgcd], Int.emod_nonneg _ (by omega),
      Int.emod_lt_of_pos _ (by omega), ?_⟩
    have hone : Int.gcdA x m ^ (-y).toNat % m * x ^ (-y).toNat ≡ 1 [ZMOD m] :=
      calc Int.gcdA x m ^ (-y).toNat % m * x ^ (-y).toNat
          ≡ Int.gcdA x m ^ (-y).toNat * x ^ (-y).toNat [ZMOD m] :=
            (Int.mod_modEq _ m).mul_right _
        _ = (Int.gcdA x m * x) ^ (-y).toNat := (mul_pow _ _ _).symm
        _ ≡ 1 ^ (-y).toNat [ZMOD m] := (gcdA_mul hcoprime).pow _
        _ = 1 := one_pow _
    exact hone.eq.trans (Int.emod_eq_of_lt (by omega) hm)
  divm_spec a b m hm hcoprime := by
    have hgcd := Int.isCoprime_iff_gcd_eq_one.mp hcoprime
    refine ⟨_, if_pos hgcd, Int.emod_nonneg _ (by omega), Int.emod_lt_of_pos _ (by omega), ?_⟩
    calc b * (a * Int.gcdA b m % m) ≡ b * (a * Int.gcdA b m) [ZMOD m] :=
          (Int.mod_modEq _ m).mul_left _
      _ = a * (Int.gcdA b m * b) := by ring
      _ ≡ a * 1 [ZMOD m] := (gcdA_mul hcoprime).mul_left _
      _ = a := mul_one a

/-- `2 ^ 71 * 5 ^ 27 + 1` and the safe prime that it gives -/
theorem safe_prime_71_27 : Nat.Prime 17592186044416000000000000000000000000001 ∧
    Nat.Prime (2 * 17592186044416000000000000000000000000001 + 1) := by
  refine safe_prime_of_pow (r := 2) (s := 5) (a := 71) (b := 27) Nat.prime_two Nat.prime_five
    (by norm_num) 3 ?_ ?_ ?_ ?_ ?_
  · norm_num only
    reduce_mod_char
  · norm_num only
    reduce_mod_char
    decide
  · norm_num only
    reduce_mod_char
    decide
  · norm_num only
    reduce_mod_char
  · reduce_mod_char
    decide

/-- `2 ^ 81 * 5 ^ 23 + 1` and the safe prime that it gives -/
theorem safe_prime_81_23 : Nat.Prime 28823037615171174400000000000000000000001 ∧
    Nat.Prime (2 * 28823037615171174400000000000000000000001 + 1) := by
  refine safe_prime_of_pow (r := 2) (s := 5) (a := 81) (b := 23) Nat.prime_two Nat.prime_five
    (by norm_num) 3 ?_ ?_ ?_ ?_ ?_
  · norm_num only
    reduce_mod_char
  · norm_num only
    reduce_mod_char
    decide
  · norm_num only
    reduce_mod_char
    decide
  · norm_num only
    reduce_mod_char
  · reduce_mod_char
    decide

/-- two safe primes of 135 and 136 bits, and four parties, any two of whom sign -/
def Parameters.four : Parameters where
  p' := 17592186044416000000000000000000000000001
  q' := 28823037615171174400000000000000000000001
  prime_p' := safe_prime_71_27.1
  prime_q' := safe_prime_81_23.1
  prime_p := safe_prime_71_27.2
  prime_q := safe_prime_81_23.2
  distinct := by decide
  l := 4
  k := 2
  one_le_k := by decide
  k_le_l := by decide
  e := 5
  prime_e := Nat.prime_five
  odd_e := rfl
  l_lt_e := by decide
  coprime_e := by norm_num
  d := 405648192073033408478945025720320000000037132178927669739520000000000000000000001
  inverse_d := by decide
  rest := [-7]
  length_rest := rfl

theorem combineShares_verifies_hi :
    let PK := Parameters.four.publicKey 4 []
    ∃ sig₁ sig₃ y : ℤ, ∃ hnodup,
      (PK.privateKey Parameters.four.a 1).sign Packages.exact [0x68, 0x69] = some sig₁ ∧
      (PK.privateKey Parameters.four.a 3).sign Packages.exact [0x68, 0x69] = some sig₃ ∧
      PK.combineShares Packages.exact [0x68, 0x69] ⟨[(3, sig₃), (1, sig₁)], hnodup⟩ = some y ∧
      y ^ 5 ≡ hash Packages.exact [0x68, 0x69] [ZMOD Parameters.four.n] ∧
      PK.verifySignature Packages.exact y [0x68, 0x69] = some true := by
  intro PK
  obtain ⟨-, hsign, hcombine⟩ := combineShares_verifies Packages.exact Parameters.four 4 []
    [0x68, 0x69] (by decide +kernel) (by decide +kernel) {1, 3} (by decide) rfl
  obtain ⟨sig₁, h₁⟩ := hsign 1 (by decide)
  obtain ⟨sig₃, h₃⟩ := hsign 3 (by decide)
  have hnodup : ([((3 : ℤ), sig₃), (1, sig₁)].map Prod.fst).Nodup := by simp
  obtain ⟨y, hy⟩ := hcombine ⟨[(3, sig₃), (1, sig₁)], hnodup⟩
    (by simp [Finset.pair_comm]) (by simp [h₁, h₃])
  exact ⟨sig₁, sig₃, y, hnodup, h₁, h₃, hy⟩

end Shoup
