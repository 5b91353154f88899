import HoneyBadgerBFT.HoneyBadgerBlock.Pickle

/-!
# Threshold decryption: which dictionaries combine

`combine_shares` takes any dictionary from integers to group elements (`Shares`).  Its first
assertion leaves keys from `range(l)`, for which it is `PublicKey.combineShares`.  The number of the
shares is only looked at by `lagrange`, once for each share: of no shares at all, `reduce` makes the
`ONE` of `ZR` that it starts from, and the mask is the hash of that.

* `combine_eq_some_iff`    a dictionary that is not empty combines if and only if it has the right
                           shares of `k` parties;
* `combine_of_quorum`      which give the mask of the secret, whoever they are;
* `combine_empty`          the empty dictionary combines too.
-/

namespace TPKE

/-- a dictionary from integers to group elements, in the order of its insertions -/
structure Shares (G : Type) where
  items : List (ℤ × G)
  nodup : (items.map Prod.fst).Nodup

section
variable {p : ℕ} [Fact p.Prime] {G T : Type} [CommGroup G] [CommGroup T] [DecidableEq T]
  (E : Packages p G T)

/-- `combine_shares(U, V, W, shares)`, where `one` is `serialize(ONE)` -/
def PublicKey.combine (PK : PublicKey G) (one : Bytes) (U : G) (V : Bytes) (shares : Shares G) :
    Option Bytes :=
  if ∀ x ∈ shares.items, 0 ≤ x.1 ∧ x.1 < PK.l then
    match shares.items with
    | [] => xor (sha256 one) (.bytes V)
    | items => PK.combineShares E U (.bytes V) (items.map fun x => (x.1.toNat, some x.2))
  else none

omit [Fact p.Prime] in
/-- an index of a private key, and what the key makes of `U` -/
def RightShare (SKs : List (PrivateKey p G)) (U : G) (x : ℤ × G) : Prop :=
  ∃ (i : ℕ) (SK : PrivateKey p G), x.1 = i ∧ SKs[i]? = some SK ∧ x.2 = U ^ SK.SK.val

/-- exactly `k` shares, all of them right -/
def Quorum (k : ℕ) (SKs : List (PrivateKey p G)) (U : G) (shares : Shares G) : Prop :=
  shares.items.length = k ∧ ∀ x ∈ shares.items, RightShare SKs U x

/-- `combine_shares` returns for these `k` right shares only, and then the plaintext -/
def Exact (PK : PublicKey G) (SKs : List (PrivateKey p G)) (one : Bytes) (secret : ZMod p) (U : G)
    (V : Bytes) (shares : Shares G) : Prop :=
  ((∃ m, PK.combine E one U V shares = some m) ↔ Quorum PK.k SKs U shares) ∧
    (Quorum PK.k SKs U shares →
      PK.combine E one U V shares = xor (hashG E (U ^ secret.val)) (.bytes V))

end

section
variable {p : ℕ} [Fact p.Prime] {G T : Type} [CommGroup G] [CommGroup T] [DecidableEq T]
  {E : Packages p G T} {N k : ℕ} {a : List (ZMod p)} {one : Bytes} {U : G} {V : Bytes}
  {shares : Shares G}

/-! ## the private keys -/

/-- the keys that the dealer gives out -/
def privateKeys (E : Packages p G T) (players k : ℕ) (a : List (ZMod p)) :
    List (PrivateKey p G) := (List.range players).map (privateKey E players k a)

omit [DecidableEq T] in
theorem rightShare_iff {x : ℤ × G} : RightShare (privateKeys E N k a) U x ↔
    (0 ≤ x.1 ∧ x.1 < N) ∧ x.2 = U ^ (secretKey a x.1.toNat).val := by
  constructor
  · rintro ⟨i, SK, hx, hSK, hshare⟩
    obtain ⟨i', hi, rfl⟩ := List.mem_map.mp (List.mem_of_getElem? hSK)
    have hlt : i < N := by
      have := (List.getElem?_eq_some_iff.mp hSK).1
      rwa [privateKeys, List.length_map, List.length_range] at this
    obtain rfl : i' = i := by
      rw [privateKeys, List.getElem?_map, List.getElem?_range hlt] at hSK
      exact (congrArg PrivateKey.i (Option.some.inj hSK)).symm
    refine ⟨by omega, ?_⟩
    rw [hx, Int.toNat_natCast]
    exact hshare
  · rintro ⟨hx, hshare⟩
    refine ⟨x.1.toNat, privateKey E N k a x.1.toNat, by omega, ?_, hshare⟩
    rw [privateKeys, List.getElem?_map, List.getElem?_range (by omega)]
    rfl

/-! ## too few and too many shares -/

omit [CommGroup G] in
/-- the number of the shares is asked by `lagrange` -/
theorem lagrange_of_card {PK : PublicKey G} {S : Finset ℕ} (h : S.card ≠ PK.k) (j : ℕ) :
    PK.lagrange (p := p) S j = none := if_neg fun hc => h hc.1

theorem combineShares_of_card {PK : PublicKey G} {V : PyObj} {x : ℕ × Option G}
    {l : List (ℕ × Option G)} (h : ((x :: l).map Prod.fst).toFinset.card ≠ PK.k) :
    PK.combineShares E U V (x :: l) = none := by
  unfold PublicKey.combineShares
  dsimp only
  split
  · have hfactor : (x.2.bind fun share =>
        (PK.lagrange (p := p) ((x :: l).map Prod.fst).toFinset x.1).bind fun coeff =>
          some (share ^ coeff.val)) = none := by
      rw [lagrange_of_card h]
      cases x.2 <;> rfl
    simp only [Option.bind_eq_bind] at hfactor ⊢
    rw [List.mapM_cons, hfactor]
    rfl
  · rfl

/-! ## the dictionary -/

omit [CommGroup G] in
/-- the keys of a dictionary that passes the first assertion -/
theorem natKeys_nodup (hnn : ∀ x ∈ shares.items, 0 ≤ x.1) :
    ((shares.items.map fun x => (x.1.toNat, some x.2)).map Prod.fst).Nodup := by
  have hmap : (shares.items.map fun x => (x.1.toNat, some x.2)).map Prod.fst =
      (shares.items.map Prod.fst).map Int.toNat := by
    rw [List.map_map, List.map_map]
    rfl
  rw [hmap]
  refine shares.nodup.map_on fun i hi j hj hij => ?_
  obtain ⟨x, hx, rfl⟩ := List.mem_map.mp hi
  obtain ⟨y, hy, rfl⟩ := List.mem_map.mp hj
  have h1 := hnn x hx
  have h2 := hnn y hy
  omega

theorem combine_of_cons {PK : PublicKey G} (hne : shares.items ≠ [])
    (hrange : ∀ x ∈ shares.items, 0 ≤ x.1 ∧ x.1 < PK.l) :
    PK.combine E one U V shares =
      PK.combineShares E U (.bytes V) (shares.items.map fun x => (x.1.toNat, some x.2)) := by
  unfold PublicKey.combine
  rw [if_pos hrange]
  split
  · next h => exact absurd h hne
  · rfl

/-- **the right shares of any `k` parties** give the mask of the secret -/
theorem combine_of_quorum (hN : N < p) (hk : 1 ≤ k) (ha : a.length = k)
    (hq : Quorum k (privateKeys E N k a) U shares) :
    (publicKey E N k a).combine E one U V shares =
      xor (hashG E (U ^ ((poly a).eval 0).val)) (.bytes V) := by
  obtain ⟨hlen, hright⟩ := hq
  have hr := fun x hx => rightShare_iff.mp (hright x hx)
  rw [combine_of_cons (fun h => by rw [h] at hlen; exact absurd hlen (by simp; omega))
    fun x hx => (hr x hx).1]
  refine combineShares_of_correct hN ha (natKeys_nodup fun x hx => (hr x hx).1.1)
    (by rw [List.length_map, hlen]) _ fun y hy => ?_
  obtain ⟨x, hx, rfl⟩ := List.mem_map.mp hy
  obtain ⟨hrange, hshare⟩ := hr x hx
  exact ⟨by dsimp only; omega, congrArg some hshare⟩

/-- **a dictionary that combines** has the right shares of `k` parties, if it is not empty -/
theorem quorum_of_combine (hne : shares.items ≠ [])
    {m : Bytes} (h : (publicKey E N k a).combine E one U V shares = some m) :
    Quorum k (privateKeys E N k a) U shares := by
  by_cases hrange : ∀ x ∈ shares.items, 0 ≤ x.1 ∧ x.1 < N
  · rw [combine_of_cons hne hrange] at h
    refine ⟨?_, fun x hx => ?_⟩
    · by_contra hlen
      obtain ⟨x, l, hitems⟩ := List.exists_cons_of_ne_nil hne
      have hnodup := natKeys_nodup fun x hx => (hrange x hx).1
      have hcard : ((shares.items.map fun x => (x.1.toNat, some x.2)).map
          Prod.fst).toFinset.card ≠ k := by
        rw [List.toFinset_card_of_nodup hnodup, List.length_map, List.length_map]
        exact hlen
      rw [hitems, List.map_cons] at h hcard
      rw [combineShares_of_card hcard] at h
      cases h
    · by_contra hwrong
      rw [combineShares_of_wrong _ _ fun hall => hwrong ?_] at h
      · cases h
      · obtain ⟨-, hshare⟩ := hall _ (List.mem_map_of_mem hx)
        exact rightShare_iff.mpr ⟨hrange x hx, Option.some.inj hshare⟩
  · have hnone : (publicKey E N k a).combine E one U V shares = none := if_neg hrange
    rw [hnone] at h
    cases h

/-- **no shares at all** combine to the hash of `ONE` -/
theorem combine_empty {PK : PublicKey G} (hV : V.length = 32) (hempty : shares.items = []) :
    ∃ m, PK.combine E one U V shares = some m := by
  unfold PublicKey.combine
  rw [hempty, if_pos fun x hx => absurd hx List.not_mem_nil]
  exact ⟨_, xor_bytes (sha256_length _) hV⟩

/-! ## a ciphertext of `encrypt` -/

omit [Fact p.Prime] [DecidableEq T] in
theorem encrypt_eq_some {PK : PublicKey G} {m : Bytes} (hm : m.length = 32) (r : ZMod p) :
    ∃ U V W, PK.encrypt E m r = some (U, V, W) := by
  obtain ⟨V, hV⟩ : ∃ V, xor m (.bytes (hashG E (PK.VK ^ r.val))) = some V :=
    ⟨_, xor_bytes hm (hashG_length _)⟩
  obtain ⟨H, hH⟩ : ∃ H, hashH E (E.g1 ^ r.val) (.bytes V) = some H := by
    have hlen : (PyObj.bytes V).len = some 32 :=
      (PyObj.len_of_bytesLike rfl).trans (congrArg some (xor_length hV))
    rw [hashH, if_pos hlen]
    exact ⟨_, rfl⟩
  refine ⟨E.g1 ^ r.val, V, H ^ r.val, ?_⟩
  unfold PublicKey.encrypt
  rw [if_pos hm]
  simp only [hV, hH, Option.bind_eq_bind, Option.bind_some]

/-- **threshold decryption**: for keys of the dealer, `combine_shares` does what it is for on every
dictionary but the empty one, and on the shares that the private keys make of a ciphertext it gives
back what was encrypted -/
theorem threshold_decryption (E : Packages p G T) (one : Bytes) (players k : ℕ) (hk : 1 ≤ k)
    (hkp : k ≤ players) (hp : players < p) (secret : ZMod p) (rest : List (ZMod p))
    (hlen : (secret :: rest).length = k) :
    ∃ PK SKs, dealer E players k secret rest = some (PK, SKs) ∧ PK.k = k ∧
      (∀ (U : G) (V : Bytes) (shares : Shares G), V.length = 32 →
        (Exact E PK SKs one secret U V shares ↔ shares.items ≠ [])) ∧
      ∀ (m : Bytes) (r : ZMod p), m.length = 32 → ∃ U V W, PK.encrypt E m r = some (U, V, W) ∧
        (∀ SK ∈ SKs, ∃ share, SK.decryptShare E U (.bytes V) W = some share) ∧
        ∀ shares : Shares G, shares.items.length = k →
          (∀ x ∈ shares.items, ∃ (i : ℕ) (SK : PrivateKey p G), x.1 = i ∧ SKs[i]? = some SK ∧
            SK.decryptShare E U (.bytes V) W = some x.2) →
          PK.combine E one U V shares = some m := by
  have hzero := eval_zero_poly secret rest
  refine ⟨_, privateKeys E players k (secret :: rest), dealer_eq hp hkp secret hlen, rfl,
    fun U V shares hV => ⟨fun hex hempty => ?_, fun hne => ⟨⟨?_, fun hq => ?_⟩, fun hq => ?_⟩⟩,
    fun m r hm => ?_⟩
  · -- the empty dictionary has not `k` shares
    have hq := hex.1.mp (combine_empty hV hempty)
    have h0 : shares.items.length = k := hq.1
    rw [hempty, List.length_nil] at h0
    omega
  · rintro ⟨m, hm⟩
    exact quorum_of_combine hne hm
  · rw [combine_of_quorum hp hk hlen hq]
    exact ⟨_, xor_bytes (hashG_length _) hV⟩
  · rw [combine_of_quorum hp hk hlen hq, hzero]
  · obtain ⟨U, V, W, henc⟩ : ∃ U V W,
        (publicKey E players k (secret :: rest)).encrypt E m r = some (U, V, W) :=
      encrypt_eq_some hm r
    obtain ⟨-, -, hver, hmask⟩ := encrypt_spec henc
    refine ⟨U, V, W, henc, fun SK _ => ⟨_, if_pos hver⟩, fun shares hcard hshares => ?_⟩
    have hq : Quorum k (privateKeys E players k (secret :: rest)) U shares := by
      refine ⟨hcard, fun x hx => ?_⟩
      obtain ⟨i, SK, hi, hSK, hshare⟩ := hshares x hx
      rw [PrivateKey.decryptShare, if_pos hver] at hshare
      exact ⟨i, SK, hi, hSK, (Option.some.inj hshare).symm⟩
    rw [combine_of_quorum hp hk hlen hq, hzero]
    exact hmask

end

/-! ## four parties -/

section
open Block

/-- the empty dictionary -/
def noShares : Shares Z5 := ⟨[], List.nodup_nil⟩

/-- one share, of the party 2 -/
def oneShare (U : Z5) : Shares Z5 := ⟨[(2, U)], List.nodup_singleton _⟩

/-- two of four parties decrypt, and one alone does not -/
theorem threshold_decryption_five : ∃ PK SKs, dealer five 4 2 3 [1] = some (PK, SKs) ∧
    (∀ (U : Z5) (V : Bytes), V.length = 32 →
      ¬ (∃ m, PK.combine five [1] U V (oneShare U) = some m) ∧ ¬ Exact five PK SKs [1] 3 U V noShares) ∧
    ∀ (m : Bytes) (r : ZMod 5), m.length = 32 → ∃ U V W, PK.encrypt five m r = some (U, V, W) ∧
      ∀ SK ∈ SKs, ∃ share, SK.decryptShare five U (.bytes V) W = some share := by
  obtain ⟨PK, SKs, hdeal, hk, hexact, henc⟩ := threshold_decryption five [1] 4 2 (by decide)
    (by decide) (by decide) 3 [1] rfl
  refine ⟨PK, SKs, hdeal, fun U V hV => ⟨fun hm => ?_, fun hex => ?_⟩, fun m r hm => ?_⟩
  · have hone := (hexact U V (oneShare U) hV).mpr (List.cons_ne_nil _ _)
    have hcard : (oneShare U).items.length = 2 := hk ▸ (hone.1.mp hm).1
    cases hcard
  · exact (hexact U V noShares hV).mp hex rfl
  · obtain ⟨U, V, W, h, hshares, -⟩ := henc m r hm
    exact ⟨U, V, W, h, hshares⟩

/-- no shares at all combine, to the hash of `ONE` -/
theorem empty_combines : ¬ ∀ (PK : PublicKey Z5) (SKs : List (PrivateKey 5 Z5)) (one : Bytes) (U : Z5)
    (V : Bytes) (shares : Shares Z5), dealer five 4 2 3 [1] = some (PK, SKs) → V.length = 32 →
      Exact five PK SKs one 3 U V shares := by
  intro hclaim
  have hdeal : dealer five 4 2 3 [1] =
      some (publicKey five 4 2 [3, 1], privateKeys five 4 2 [3, 1]) :=
    dealer_eq (by decide) (by decide) 3 rfl
  have hV : (List.replicate 32 (0 : UInt8)).length = 32 := rfl
  have h := hclaim _ _ [1] 1 _ noShares hdeal hV
  have hq := h.1.mp (combine_empty hV rfl)
  cases hq.1

end

end TPKE
