import HoneyBadgerBFT.ThresholdEncryption.Shares

/-!
# Threshold signatures

The functions of `boldyreva`, over a pairing of `charm` with two different groups, which is a
parameter (`Charm`).  `TBLSPublicKey` and `TBLSPrivateKey` have the fields of the keys of `tpke`,
`lagrange` is the same function, and `polynom_eval` is the loop of the dealer there; `none` is an
exception.

* `verifyShare_iff`      the only share of a key that passes the check is `h` to that key;
* `combineShares_eq`     any `k` of them combine to the one signature of the secret;
* `verifySignature_iff`  which is the only one that passes its check.
-/

namespace TSIG

structure Charm (p : ℕ) (G₁ G₂ T : Type) [CommGroup G₁] [CommGroup G₂] [CommGroup T] extends
    BilinearMap p G₁ G₂ T where
  serialize : G₁ → Bytes
  /-- `group.hash(m, G1)` of a `str` -/
  hash : List ℕ → G₁

abbrev PublicKey (G : Type) := TPKE.PublicKey G

abbrev PrivateKey (p : ℕ) (G : Type) := TPKE.PrivateKey p G

section
variable {p : ℕ} [Fact p.Prime] {G₁ G₂ T : Type} [CommGroup G₁] [CommGroup G₂] [CommGroup T]

def polynomEval (x : ZMod p) (coefficients : List (ZMod p)) : ZMod p :=
  TPKE.evalLoop x coefficients 0 1

/-- `lagrange(S, j)` -/
def lagrange (PK : PublicKey G₂) (S : Finset ℕ) (j : ℕ) : Option (ZMod p) := PK.lagrange S j

variable (E : Charm p G₁ G₂ T)

def hashMessage (m : List ℕ) : G₁ := E.hash m

/-- `verify_share(sig, i, h)` returns -/
def verifyShare [DecidableEq T] (PK : PublicKey G₂) (sig : G₁) (i : ℕ) (h : G₁) : Bool :=
  match PK.VKs[i]? with
  | some B => decide (i < PK.l ∧ E.pair sig E.g2 = E.pair h B)
  | none => false

/-- `verify_signature(sig, h)` returns -/
def verifySignature [DecidableEq T] (PK : PublicKey G₂) (sig h : G₁) : Bool :=
  decide (E.pair sig E.g2 = E.pair h PK.VK)

/-- `combine_shares(sigs)` -/
def combineShares (p : ℕ) [Fact p.Prime] (PK : PublicKey G₂) (sigs : List (ℕ × G₁)) : Option G₁ :=
  let S := (sigs.map Prod.fst).toFinset
  if S ⊆ Finset.range PK.l then do
    let factors ← sigs.mapM fun x => do
      let coeff ← lagrange (p := p) PK S x.1
      some (x.2 ^ coeff.val)
    some factors.prod
  else none

/-- `sign(h)` -/
def sign (SK : PrivateKey p G₂) (h : G₁) : G₁ := h ^ SK.SK.val

/-- `dealer(players, k)` with the random coefficients `secret :: rest` -/
def dealer (players k : ℕ) (secret : ZMod p) (rest : List (ZMod p)) :
    Option (PublicKey G₂ × List (PrivateKey p G₂)) :=
  let a := secret :: rest
  if a.length = k ∧ polynomEval 0 a = secret then do
    let SKs := (List.range' 1 players).map fun i : ℕ => polynomEval i a
    let PK : PublicKey G₂ := ⟨players, k, E.g2 ^ secret.val, SKs.map fun xx => E.g2 ^ xx.val⟩
    let coeffs ← (List.range k).mapM fun j => lagrange (p := p) PK (Finset.range k) j
    let rhs := (List.zipWith (fun (c : ZMod p) (j : ℕ) => c * polynomEval ((j : ZMod p) + 1) a)
      coeffs (List.range k)).sum
    if polynomEval 0 a = rhs then some (PK, SKs.zipIdx.map fun x => ⟨PK, x.1, x.2⟩) else none
  else none

/-! ## the keys -/

/-- the keys of the dealer for the coefficients `a` -/
def publicKey (players k : ℕ) (a : List (ZMod p)) : PublicKey G₂ where
  l := players
  k := k
  VK := E.g2 ^ (a.headD 0).val
  VKs := (List.range players).map fun i => E.g2 ^ (TPKE.secretKey a i).val

def privateKey (players k : ℕ) (a : List (ZMod p)) (i : ℕ) : PrivateKey p G₂ :=
  { publicKey E players k a with SK := TPKE.secretKey a i, i := i }

omit [CommGroup G₁] [CommGroup G₂] [CommGroup T] in
theorem dealer_keys (a : List (ZMod p)) (players : ℕ) :
    (List.range' 1 players).map (fun i : ℕ => polynomEval (i : ZMod p) a) =
      (List.range players).map (TPKE.secretKey a) := TPKE.dealer_keys a players

theorem dealer_public (secret : ZMod p) (rest : List (ZMod p)) (players k : ℕ) :
    (⟨players, k, E.g2 ^ secret.val, ((List.range players).map
      (TPKE.secretKey (secret :: rest))).map fun xx => E.g2 ^ xx.val⟩ : PublicKey G₂) =
      publicKey E players k (secret :: rest) := by
  rw [publicKey, List.map_map]
  rfl

/-- **the keys** -/
theorem dealer_spec {players k : ℕ} {secret : ZMod p} {rest : List (ZMod p)} {PK : PublicKey G₂}
    {SKs : List (PrivateKey p G₂)} (h : dealer E players k secret rest = some (PK, SKs)) :
    (secret :: rest).length = k ∧ PK = publicKey E players k (secret :: rest) ∧
      ∀ i, i < players → SKs[i]? = some (privateKey E players k (secret :: rest) i) := by
  unfold dealer at h
  dsimp only at h
  split at h
  · next hlen =>
    obtain ⟨coeffs, -, h⟩ := Option.bind_eq_some_iff.mp h
    split at h
    · obtain ⟨rfl, rfl⟩ := Prod.mk.inj (Option.some.inj h)
      rw [dealer_keys, dealer_public]
      refine ⟨hlen.1, rfl, fun i hi => ?_⟩
      rw [List.getElem?_map, List.getElem?_zipIdx, List.getElem?_map, List.getElem?_range hi]
      simp [privateKey]
    · cases h
  · cases h

/-- **the assertions of the dealer** hold -/
theorem dealer_eq {N k : ℕ} (hN : N < p) (hk : k ≤ N) (secret : ZMod p) {rest : List (ZMod p)}
    (hlen : (secret :: rest).length = k) :
    dealer E N k secret rest = some (publicKey E N k (secret :: rest),
      (List.range N).map (privateKey E N k (secret :: rest))) := by
  have hzero : polynomEval 0 (secret :: rest) = secret := by
    rw [polynomEval, TPKE.evalLoop_eq, TPKE.eval_zero_poly, zero_add, one_mul]
  have hcoeffs := mapM_eq_some (List.range k) fun j hj => TPKE.lagrange_eq (p := p)
    (publicKey E N k (secret :: rest)) (Finset.range_subset_range.mpr hk)
    (Finset.card_range k) (Finset.mem_range.mpr (List.mem_range.mp hj))
  unfold dealer
  dsimp only
  rw [if_pos ⟨hlen, hzero⟩, dealer_keys, dealer_public]
  unfold lagrange
  rw [hcoeffs]
  refine (if_pos (hzero.trans (TPKE.sum_shares hN hk hlen).symm)).trans ?_
  refine congrArg (fun SKs => some (_, SKs)) (List.ext_getElem (by simp) fun i h1 h2 => ?_)
  simp [privateKey]

/-! ## shares and signatures -/

section
variable {E} {N k : ℕ} {a : List (ZMod p)} {j : ℕ} {h sig : G₁}

/-- **the share of the party `j`** -/
theorem verifyShare_iff [DecidableEq T] : verifyShare E (publicKey E N k a) sig j h = true ↔
    j < N ∧ sig = h ^ (TPKE.secretKey a j).val := by
  unfold verifyShare
  by_cases hj : j < N
  · have hkey : (publicKey E N k a).VKs[j]? = some (E.g2 ^ (TPKE.secretKey a j).val) := by
      rw [publicKey, List.getElem?_map, List.getElem?_range hj]
      rfl
    simp only [hkey, decide_eq_true_eq]
    rw [E.pair_eq_iff]
    rfl
  · have hkey : (publicKey E N k a).VKs[j]? = none := by
      rw [publicKey, List.getElem?_eq_none_iff, List.length_map, List.length_range]
      omega
    simp only [hkey]
    exact ⟨(fun h => by cases h), fun h => absurd h.1 hj⟩

theorem verifySignature_iff [DecidableEq T] :
    verifySignature E (publicKey E N k a) sig h = true ↔ sig = h ^ (a.headD 0).val := by
  unfold verifySignature
  rw [decide_eq_true_iff]
  exact E.pair_eq_iff sig h (a.headD 0).val

theorem eval_zero (ha : a ≠ []) : (TPKE.poly a).eval 0 = a.headD 0 := by
  cases a with
  | nil => exact absurd rfl ha
  | cons secret rest => exact TPKE.eval_zero_poly secret rest

/-- **uniqueness**: any `k` shares combine to the signature of the secret -/
theorem combineShares_eq (hN : N < p) (hk : 0 < k) (ha : a.length = k) (sigs : List (ℕ × G₁))
    (hnodup : (sigs.map Prod.fst).Nodup) (hlen : sigs.length = k)
    (hshares : ∀ x ∈ sigs, x.1 < N ∧ x.2 = h ^ (TPKE.secretKey a x.1).val) :
    combineShares p (publicKey E N k a) sigs = some (h ^ (a.headD 0).val) := by
  unfold combineShares
  dsimp only
  set L := sigs.map Prod.fst with hL
  have hsub : L.toFinset ⊆ Finset.range N := by
    intro j hj
    obtain ⟨x, hx, rfl⟩ := List.mem_map.mp (List.mem_toFinset.mp hj)
    exact Finset.mem_range.mpr (hshares x hx).1
  have hcard : L.toFinset.card = k := by
    rw [List.toFinset_card_of_nodup hnodup, hL, List.length_map, hlen]
  let factor (j : ℕ) : G₁ := (h ^ (TPKE.secretKey a j).val) ^
    (basisAtZero L.toFinset (fun j : ℕ => (j : ZMod p) + 1) j).val
  have hcoeff := mapM_eq_some (k := fun x => factor x.1) sigs
    (g := fun x => do
      let coeff ← lagrange (p := p) (publicKey E N k a) L.toFinset x.1
      some (x.2 ^ coeff.val)) fun x hx => by
    have hmem : x.1 ∈ L.toFinset := List.mem_toFinset.mpr (List.mem_map_of_mem hx)
    rw [lagrange, TPKE.lagrange_eq _ hsub hcard hmem, (hshares x hx).2]
    rfl
  have hcomp : (sigs.map fun x => factor x.1) = L.map factor := by
    rw [hL, List.map_map]
    rfl
  have hne : a ≠ [] := fun e => by
    rw [e] at ha
    exact absurd ha (by simp; omega)
  rw [if_pos (show L.toFinset ⊆ Finset.range (publicKey E N k a).l from hsub), hcoeff, hcomp,
    ← eval_zero hne,
    ← TPKE.prod_factors E.pow_order hN ha hnodup (by rw [hL, List.length_map, hlen]) hsub h]
  rfl

end

end

end TSIG
