import HoneyBadgerBFT.ThresholdEncryption.Tpke

/-!
# Threshold encryption: what the shares combine to

* `dealer_spec`         the keys are the values of one polynomial;
* `verifyShare_iff`     the only share of a key that passes the check is `U` to that key;
* `combineShares_eq`    any `k` shares that pass combine to the key that the secret gives;
* `decrypt_encrypt`     the symmetric ciphertext of a `str` decrypts to its UTF-8 bytes.
-/

namespace TPKE

variable {p : ℕ} [Fact p.Prime] {G T : Type} [CommGroup G] [CommGroup T] [DecidableEq T]
  {E : Packages p G T}

/-! ## the polynomial of the dealer -/

section
open Polynomial

noncomputable def poly : List (ZMod p) → (ZMod p)[X]
  | [] => 0
  | c :: a => C c + X * poly a

theorem degree_poly (a : List (ZMod p)) : (poly a).degree < a.length := by
  induction a with
  | nil => simp [poly]
  | cons c a ih =>
    rw [poly, List.length_cons]
    refine lt_of_le_of_lt (degree_add_le _ _) (max_lt ?_ ?_)
    · exact lt_of_le_of_lt degree_C_le (by exact_mod_cast Nat.succ_pos _)
    · rcases eq_or_ne (poly a) 0 with h0 | h0
      · rw [h0, mul_zero, degree_zero]
        exact WithBot.bot_lt_coe _
      · rw [degree_mul, degree_X, degree_eq_natDegree h0] at *
        have hlt : (poly a).natDegree < a.length := by exact_mod_cast ih
        exact_mod_cast (by omega : 1 + (poly a).natDegree < a.length + 1)

theorem evalLoop_eq (x : ZMod p) (a : List (ZMod p)) : ∀ y xx,
    evalLoop x a y xx = y + xx * (poly a).eval x := by
  induction a with
  | nil => simp [evalLoop, poly]
  | cons c a ih =>
    intro y xx
    rw [evalLoop, ih, poly]
    simp only [eval_add, eval_mul, eval_C, eval_X]
    ring

end

/-- the secret key of the party `i` -/
def secretKey (a : List (ZMod p)) (i : ℕ) : ZMod p := evalLoop ((i : ZMod p) + 1) a 0 1

theorem secretKey_eq (a : List (ZMod p)) (i : ℕ) :
    secretKey a i = (poly a).eval ((i : ZMod p) + 1) := by
  rw [secretKey, evalLoop_eq, zero_add, one_mul]

/-- the keys of the dealer for the coefficients `a` -/
def publicKey (E : Packages p G T) (players k : ℕ) (a : List (ZMod p)) : PublicKey G where
  l := players
  k := k
  VK := E.g1 ^ (a.headD 0).val
  VKs := (List.range players).map fun i => E.g1 ^ (secretKey a i).val

def privateKey (E : Packages p G T) (players k : ℕ) (a : List (ZMod p)) (i : ℕ) :
    PrivateKey p G :=
  { publicKey E players k a with SK := secretKey a i, i := i }

section
omit [DecidableEq T]

theorem dealer_keys (a : List (ZMod p)) (players : ℕ) :
    (List.range' 1 players).map (fun i : ℕ => evalLoop (i : ZMod p) a 0 1) =
      (List.range players).map (secretKey a) := by
  refine List.ext_getElem (by simp) fun i h1 h2 => ?_
  simp only [List.getElem_map, List.getElem_range', List.getElem_range]
  rw [secretKey]
  congr 1
  push_cast
  ring

theorem dealer_public (secret : ZMod p) (rest : List (ZMod p)) (players k : ℕ) :
    (⟨players, k, E.g1 ^ secret.val, ((List.range players).map (secretKey (secret :: rest))).map
      fun xx => E.g1 ^ xx.val⟩ : PublicKey G) = publicKey E players k (secret :: rest) := by
  rw [publicKey, List.map_map]
  rfl

/-- **the keys** -/
theorem dealer_spec {players k : ℕ} {secret : ZMod p} {rest : List (ZMod p)} {PK : PublicKey G}
    {SKs : List (PrivateKey p G)} (h : dealer E players k secret rest = some (PK, SKs)) :
    (secret :: rest).length = k ∧ PK = publicKey E players k (secret :: rest) ∧
      ∀ i, i < players → SKs[i]? = some (privateKey E players k (secret :: rest) i) := by
  unfold dealer at h
  dsimp only at h
  split at h
  · next hlen =>
    obtain ⟨coeffs, -, h⟩ := Option.bind_eq_some_iff.mp h
    split at h
    · obtain ⟨rfl, rfl⟩ := Prod.mk.inj (Option.some.inj h)
      rw [dealer_keys, dealer_public]
      refine ⟨hlen.1, rfl, fun i hi => ?_⟩
      rw [List.getElem?_map, List.getElem?_zipIdx, List.getElem?_map, List.getElem?_range hi]
      simp [privateKey]
    · cases h
  · cases h

end

/-! ## shares -/

section
variable {N k : ℕ} {a : List (ZMod p)} {j : ℕ} {U : G}

/-- **the share of the party `j`** -/
theorem verifyShare_iff {share : Option G} : (publicKey E N k a).verifyShare E j share U = true ↔
    j < N ∧ share = some (U ^ (secretKey a j).val) := by
  unfold PublicKey.verifyShare
  cases share with
  | none => exact ⟨(fun h => by cases h), fun h => by cases h.2⟩
  | some g =>
    by_cases hj : j < N
    · have hkey : (publicKey E N k a).VKs[j]? = some (E.g1 ^ (secretKey a j).val) := by
        rw [publicKey, List.getElem?_map, List.getElem?_range hj]
        rfl
      simp only [hkey, decide_eq_true_eq]
      rw [E.pair_eq_iff, Option.some_inj]
      rfl
    · have hkey : (publicKey E N k a).VKs[j]? = none := by
        rw [publicKey, List.getElem?_eq_none_iff, List.length_map, List.length_range]
        omega
      simp only [hkey]
      exact ⟨(fun h => by cases h), fun h => absurd h.1 hj⟩

/-- the points of the shares are different -/
theorem points_inj (hN : N < p) {S : Finset ℕ} (hS : S ⊆ Finset.range N) :
    Set.InjOn (fun j : ℕ => (j : ZMod p) + 1) S := by
  intro i hi j hj h
  have hi' := Finset.mem_range.mp (hS hi)
  have hj' := Finset.mem_range.mp (hS hj)
  exact CharP.natCast_injOn_Iio (ZMod p) p (Set.mem_Iio.mpr (hi'.trans hN))
    (Set.mem_Iio.mpr (hj'.trans hN)) (add_right_cancel h)

omit [CommGroup G] in
theorem lagrange_eq (PK : PublicKey G) {S : Finset ℕ} (hS : S ⊆ Finset.range PK.l)
    (hcard : S.card = PK.k) (hj : j ∈ S) :
    PK.lagrange (p := p) S j = some (basisAtZero S (fun j : ℕ => (j : ZMod p) + 1) j) := by
  unfold PublicKey.lagrange
  rw [if_pos ⟨hcard, hS, hj⟩, basisAtZero, Finset.prod_div_distrib]
  refine congrArg some (congrArg₂ (· / ·) ?_ ?_)
  · exact Finset.prod_congr rfl fun i _ => sub_sub _ _ _
  · exact Finset.prod_congr rfl fun i _ => (add_sub_add_right_eq_sub _ _ _).symm

/-- **shares of `k` parties** give the secret in the exponent -/
theorem prod_factors (hG : ∀ g : G, g ^ p = 1) (hN : N < p) (ha : a.length = k) {L : List ℕ}
    (hnodup : L.Nodup) (hlen : L.length = k) (hL : L.toFinset ⊆ Finset.range N) (U : G) :
    (L.map fun j => (U ^ (secretKey a j).val) ^
      (basisAtZero L.toFinset (fun j : ℕ => (j : ZMod p) + 1) j).val).prod =
        U ^ ((poly a).eval 0).val := by
  have hdeg : (poly a).degree < L.toFinset.card := by
    rw [List.toFinset_card_of_nodup hnodup, hlen, ← ha]
    exact degree_poly a
  rw [← List.prod_toFinset _ hnodup, ← prod_share hG (points_inj hN hL) hdeg U]
  exact Finset.prod_congr rfl fun j _ => by rw [secretKey_eq]

/-- shares that are not all those of their parties are refused -/
theorem combineShares_of_wrong (shares : List (ℕ × Option G)) (V : PyObj)
    (h : ¬ ∀ x ∈ shares, x.1 < N ∧ x.2 = some (U ^ (secretKey a x.1).val)) :
    (publicKey E N k a).combineShares E U V shares = none := by
  unfold PublicKey.combineShares
  exact if_neg fun hc => h fun x hx => verifyShare_iff.mp (hc.2 x hx)

/-- **any `k` shares combine to the same key** -/
theorem combineShares_of_correct (hN : N < p) (ha : a.length = k) {shares : List (ℕ × Option G)}
    (hnodup : (shares.map Prod.fst).Nodup) (hlen : shares.length = k) (V : PyObj)
    (h : ∀ x ∈ shares, x.1 < N ∧ x.2 = some (U ^ (secretKey a x.1).val)) :
    (publicKey E N k a).combineShares E U V shares =
      xor (hashG E (U ^ ((poly a).eval 0).val)) V := by
  unfold PublicKey.combineShares
  dsimp only
  have hmem : ∀ {j}, j ∈ (shares.map Prod.fst).toFinset ↔ ∃ x ∈ shares, x.1 = j := by
    intro j
    rw [List.mem_toFinset, List.mem_map]
  have hcard : (shares.map Prod.fst).toFinset.card = k := by
    rw [List.toFinset_card_of_nodup hnodup, List.length_map, hlen]
  set S := (shares.map Prod.fst).toFinset with hSdef
  have hS : S ⊆ Finset.range N := by
    intro j hj
    obtain ⟨x, hx, rfl⟩ := hmem.mp hj
    exact Finset.mem_range.mpr (h x hx).1
  rw [if_pos ⟨hS, fun x hx => verifyShare_iff.mpr (h x hx)⟩]
  let factor (j : ℕ) : G := (U ^ (secretKey a j).val) ^
    (basisAtZero S (fun j : ℕ => (j : ZMod p) + 1) j).val
  rw [mapM_eq_some (k := fun x => factor x.1) shares fun x hx => ?_]
  · have hcomp : (shares.map fun x => factor x.1) = (shares.map Prod.fst).map factor := by
      rw [List.map_map]
      rfl
    show xor (hashG E (shares.map fun x => factor x.1).prod) V = _
    rw [hcomp, prod_factors E.pow_order hN ha hnodup (by rw [List.length_map, hlen]) hS]
  · rw [(h x hx).2, lagrange_eq _ hS hcard (hmem.mpr ⟨x, hx, rfl⟩)]
    rfl

theorem eval_zero_poly (secret : ZMod p) (rest : List (ZMod p)) :
    (poly (secret :: rest)).eval 0 = secret := by
  simp [poly]

omit [CommGroup G] [CommGroup T] [DecidableEq T] in
/-- the sum that the dealer checks -/
theorem sum_shares (hN : N < p) (hk : k ≤ N) {secret : ZMod p} {rest : List (ZMod p)}
    (hlen : (secret :: rest).length = k) :
    (List.zipWith
      (fun (c : ZMod p) (j : ℕ) => c * evalLoop ((j : ZMod p) + 1) (secret :: rest) 0 1)
      ((List.range k).map (basisAtZero (Finset.range k) fun j : ℕ => (j : ZMod p) + 1))
      (List.range k)).sum = secret := by
  have hdeg : (poly (secret :: rest)).degree < (Finset.range k).card := by
    rw [Finset.card_range, ← hlen]
    exact degree_poly _
  have hsum := sum_basis_eval_zero (points_inj hN (Finset.range_subset_range.mpr hk)) hdeg
  rw [eval_zero_poly] at hsum
  rw [List.zipWith_map_left, List.zipWith_self]
  refine Eq.trans ?_ hsum
  refine congrArg List.sum (List.map_congr_left fun j _ => ?_)
  rw [mul_comm, ← secretKey_eq]
  rfl

omit [DecidableEq T] in
/-- **the assertions of the dealer** hold -/
theorem dealer_eq (hN : N < p) (hk : k ≤ N) (secret : ZMod p) {rest : List (ZMod p)}
    (hlen : (secret :: rest).length = k) :
    dealer E N k secret rest = some (publicKey E N k (secret :: rest),
      (List.range N).map (privateKey E N k (secret :: rest))) := by
  have hzero : evalLoop 0 (secret :: rest) 0 1 = secret := by
    rw [evalLoop_eq, eval_zero_poly, zero_add, one_mul]
  have hS : Finset.range k ⊆ Finset.range N := Finset.range_subset_range.mpr hk
  have hcoeffs := mapM_eq_some (List.range k) fun j hj => lagrange_eq (p := p)
    (publicKey E N k (secret :: rest)) hS (Finset.card_range k)
    (Finset.mem_range.mpr (List.mem_range.mp hj))
  have hrhs := sum_shares (p := p) hN hk hlen
  unfold dealer
  dsimp only
  rw [if_pos ⟨hlen, hzero⟩, dealer_keys, dealer_public, hcoeffs]
  show (if _ = _ then _ else _) = _
  rw [if_pos (hzero.trans hrhs.symm)]
  refine congrArg (fun SKs => some (_, SKs)) (List.ext_getElem (by simp) fun i h1 h2 => ?_)
  simp [privateKey]

end

/-! ## a ciphertext -/

theorem xor_self_left (x m : Bytes) (h : x.length = m.length) :
    List.zipWith (· ^^^ ·) x (List.zipWith (· ^^^ ·) m x) = m := by
  refine List.ext_getElem (by simp [h]) fun i h1 h2 => ?_
  simp only [List.getElem_zipWith]
  rw [UInt8.xor_comm m[i], ← UInt8.xor_assoc, UInt8.xor_self, UInt8.zero_xor]

theorem xor_bytes {x y : Bytes} (hx : x.length = 32) (hy : y.length = 32) :
    xor x (.bytes y) = some (List.zipWith (· ^^^ ·) x y) := by
  have hlen : (PyObj.bytes y).len = some 32 := by
    rw [PyObj.len_of_bytesLike (b := y) rfl, hy]
  rw [xor, if_pos ⟨hlen, hx⟩]
  rfl

theorem xor_length {x z : Bytes} {y : PyObj} (h : xor x y = some z) : z.length = 32 := by
  unfold xor at h
  split at h
  · next hlen =>
    obtain ⟨b, hb, rfl⟩ := Option.map_eq_some_iff.mp h
    have hy := PyObj.len_of_bytesLike hb
    rw [hlen.1] at hy
    rw [List.length_zipWith, hlen.2, ← Option.some.inj hy, min_self]
  · cases h

omit [Fact p.Prime] [DecidableEq T] in
theorem hashG_length (g : G) : (hashG E g).length = 32 := sha256_length _

/-- **a ciphertext that was made by `encrypt`** passes the check and gives the key back -/
theorem encrypt_spec {N k : ℕ} {a : List (ZMod p)} {m : Bytes} {r : ZMod p} {U W : G} {V : Bytes}
    (h : (publicKey E N k a).encrypt E m r = some (U, V, W)) :
    V.length = 32 ∧ m.length = 32 ∧ verifyCiphertext E U (.bytes V) W = true ∧
      xor (hashG E (U ^ (a.headD 0).val)) (.bytes V) = some m := by
  unfold PublicKey.encrypt at h
  split at h
  · next hm =>
    obtain ⟨V', hV, h⟩ := Option.bind_eq_some_iff.mp h
    obtain ⟨H, hH, h⟩ := Option.bind_eq_some_iff.mp h
    obtain ⟨rfl, hVW⟩ := Prod.mk.inj (Option.some.inj h)
    obtain ⟨rfl, rfl⟩ := Prod.mk.inj hVW
    have hV32 := xor_length hV
    rw [xor_bytes hm (hashG_length _)] at hV
    refine ⟨hV32, hm, ?_, ?_⟩
    · unfold verifyCiphertext
      rw [hH]
      simp only [decide_eq_true_eq]
      rw [E.pair_pow_right, E.pair_pow_left]
    · have hkey : (E.g1 ^ r.val) ^ (a.headD 0).val = (publicKey E N k a).VK ^ r.val := by
        rw [publicKey, ← pow_mul, ← pow_mul, Nat.mul_comm]
      rw [hkey, xor_bytes (hashG_length _) hV32, ← Option.some.inj hV,
        xor_self_left _ _ ((hashG_length _).trans hm.symm)]
  · cases h

/-! ## symmetric encryption -/

section
variable {E : Packages p G T}
omit [Fact p.Prime] [DecidableEq T]

/-- the cipher takes `c`, and there is a last byte to unpad -/
def Decryptable (c : PyObj) : Prop :=
  ∃ iv body, (c.front 16).readOnly = some iv ∧ iv.length = 16 ∧
    (c.back 16).readOnly = some body ∧ body.length % 16 = 0 ∧ body ≠ []

theorem unpad_eq_none {s : Bytes} : unpad s = none ↔ s = [] := by
  rw [unpad, Option.map_eq_none_iff, List.getLast?_eq_none_iff]

theorem decryptable_iff {key : Bytes} (hkey : key.length = 32) (c : PyObj) :
    (∃ plain, decrypt E key c = some plain) ↔ Decryptable c := by
  unfold decrypt Decryptable
  constructor
  · rintro ⟨plain, h⟩
    obtain ⟨iv, hiv, h⟩ := Option.bind_eq_some_iff.mp h
    split at h
    · next hlen =>
      obtain ⟨body, hbody, h⟩ := Option.bind_eq_some_iff.mp h
      split at h
      · next hmod =>
        refine ⟨iv, body, hiv, hlen.2, hbody, hmod, ?_⟩
        rintro rfl
        have hnil : E.cbcDecrypt key iv [] = [] :=
          List.length_eq_zero_iff.mp (E.cbcDecrypt_length key iv [])
        rw [hnil] at h
        cases h
      · cases h
    · cases h
  · rintro ⟨iv, body, hiv, hlen, hbody, hmod, hne⟩
    have hsome : unpad (E.cbcDecrypt key iv body) ≠ none := by
      rw [Ne, unpad_eq_none]
      intro hnil
      have := E.cbcDecrypt_length key iv body
      rw [hnil] at this
      exact hne (List.length_eq_zero_iff.mp this.symm)
    obtain ⟨plain, hplain⟩ := Option.ne_none_iff_exists'.mp hsome
    refine ⟨plain, ?_⟩
    simp only [hiv, Option.bind_eq_bind, Option.bind_some, if_pos (And.intro hkey hlen), hbody,
      if_pos hmod]
    exact hplain

theorem unpad_pad {b : Bytes} {n : ℕ} (hn : 0 < n) (h16 : n ≤ 16) :
    unpad (b ++ List.replicate n n.toUInt8) = some b := by
  obtain ⟨k, rfl⟩ : ∃ k, n = k + 1 := ⟨n - 1, by omega⟩
  have hlast : (b ++ List.replicate (k + 1) (k + 1).toUInt8).getLast? = some (k + 1).toUInt8 := by
    rw [List.replicate_succ', ← List.append_assoc, List.getLast?_concat]
  have hval : ((k + 1).toUInt8).toNat = k + 1 := by
    simp only [Nat.toUInt8, UInt8.toNat_ofNat']
    omega
  rw [unpad, hlast, Option.map_some, hval, sliceTo_neg _ hn, List.length_append,
    List.length_replicate, Nat.add_sub_cancel, List.take_left]

/-- **the ciphertext of a `str`** -/
theorem decrypt_encrypt {key iv c : Bytes} {raw : List ℕ} (h : encrypt E key raw iv = some c) :
    ∃ b, encodeUtf8 raw = some b ∧ decrypt E key (.bytes c) = some b := by
  unfold encrypt at h
  split at h
  · next hlen =>
    obtain ⟨padded, hpad, h⟩ := Option.bind_eq_some_iff.mp h
    split at h
    · next hmod =>
      obtain rfl := Option.some.inj h
      obtain ⟨b, y, hb, hy, rfl⟩ := encodeUtf8_append hpad
      have hBS : BS - raw.length % BS ≤ 16 := Nat.sub_le _ _
      have hpos : 0 < BS - raw.length % BS := Nat.sub_pos_of_lt (Nat.mod_lt _ (by decide))
      rw [encodeUtf8_replicate (by omega)] at hy
      obtain rfl := Option.some.inj hy
      refine ⟨b, hb, ?_⟩
      unfold decrypt
      simp only [PyObj.front, PyObj.back, PyObj.readOnly, Option.bind_eq_bind, Option.bind_some]
      rw [← hlen.2, List.take_left, List.drop_left, if_pos ⟨hlen.1, rfl⟩, E.cbcEncrypt_length, hlen.2,
        if_pos hmod, E.cbcDecrypt_encrypt _ _ _ hlen.1 hlen.2 hmod, unpad_pad hpos hBS]
    · cases h
  · cases h

end

end TPKE
