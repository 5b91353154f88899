import HoneyBadgerBFT.HoneyBadgerBlock.Decrypt

/-!
# One block of HoneyBadgerBFT: the entries of the common subset

`WellFormed v` is what an entry has to be for no loop of the block to raise on it; a proposal that
an honest party has made is so (`propose_spec`).
-/

set_option linter.unusedSectionVars false

namespace Block
open TPKE

variable {p : ℕ} [Fact p.Prime] {G T : Type} [CommGroup G] [CommGroup T] [DecidableEq T]
  (E : Packages p G T) (P : Pickle)

/-- the entry is a pickle of a pair, its triple has the right lengths and is read, and it passes the
check of a ciphertext -/
def Checked (v : Bytes) : Prop :=
  ∃ U V W ciph, opened E P v = some ((U, V, W), ciph) ∧ verifyCiphertext E U V W = true

/-- and its second part is an IV of 16 bytes before whole blocks, one at least -/
def WellFormed (v : Bytes) : Prop :=
  ∃ U V W ciph, opened E P v = some ((U, V, W), ciph) ∧ verifyCiphertext E U V W = true ∧
    Decryptable ciph

variable {E P}

/-! ## the first loop -/

/-- **the first loop** raises unless all entries pass the check -/
theorem mySharesFrom_iff (A : Answers) (SK : PrivateKey p G) (vall : List (Option Bytes)) : ∀ i,
    (∃ shares, mySharesFrom E A SK i vall = some shares) ↔
      ∀ n v, vall[n]? = some (some v) → Checked E (A (i + n)) v := by
  induction vall with
  | nil =>
    refine fun i => iff_of_true ⟨[], rfl⟩ fun n v hn => ?_
    cases hn
  | cons o vall ih =>
    intro i
    rw [forall_entries_cons (Q := fun n v => Checked E (A n) v), ← ih (i + 1)]
    cases o with
    | none =>
      constructor
      · rintro ⟨shares, h⟩
        obtain ⟨rest, hrest, -⟩ := Option.bind_eq_some_iff.mp h
        refine ⟨fun v hv => ?_, rest, hrest⟩
        cases hv
      · rintro ⟨-, rest, hrest⟩
        exact ⟨none :: rest, by rw [mySharesFrom, hrest]; rfl⟩
    | some w =>
      constructor
      · rintro ⟨shares, h⟩
        obtain ⟨⟨⟨U, V, W⟩, ciph⟩, ho, h⟩ := Option.bind_eq_some_iff.mp h
        obtain ⟨share, hs, h⟩ := Option.bind_eq_some_iff.mp h
        obtain ⟨rest, hrest, -⟩ := Option.bind_eq_some_iff.mp h
        refine ⟨fun v hv => ?_, rest, hrest⟩
        obtain rfl := Option.some.inj hv
        unfold PrivateKey.decryptShare at hs
        split at hs
        · next hc => exact ⟨U, V, W, ciph, ho, hc⟩
        · cases hs
      · rintro ⟨hfirst, rest, hrest⟩
        obtain ⟨U, V, W, ciph, ho, hc⟩ := hfirst w rfl
        refine ⟨some (U ^ SK.SK.val) :: rest, ?_⟩
        rw [mySharesFrom, ho, hrest]
        simp only [Option.bind_eq_bind, Option.bind_some, PrivateKey.decryptShare, if_pos hc]

theorem myShares_iff (SK : PrivateKey p G) (vall : List (Option Bytes)) :
    (∃ shares, myShares E P SK vall = some shares) ↔ ∀ v, some v ∈ vall → Checked E P v := by
  refine (mySharesFrom_iff (fun _ => P) SK vall 0).trans ⟨fun h v hv => ?_, fun h n v hn => ?_⟩
  · obtain ⟨n, hn⟩ := List.mem_iff_getElem?.mp hv
    exact h n v hn
  · exact h v (List.mem_of_getElem? hn)

/-- the shares of the first loop -/
theorem mySharesFrom_right {A : Answers} {SK : PrivateKey p G} : ∀ {vall : List (Option Bytes)}
    {i : ℕ} {shares : List (Option G)}, mySharesFrom E A SK i vall = some shares → ∀ n v,
      vall[n]? = some (some v) → RightShare E (A (i + n)) SK.SK shares n v := by
  intro vall
  induction vall with
  | nil =>
    intro i shares _ n v hn
    simp at hn
  | cons o vall ih =>
    intro i shares h n v hn
    have hshift : ∀ n, i + (n + 1) = i + 1 + n := fun n => by omega
    cases o with
    | none =>
      obtain ⟨rest, hrest, h⟩ := Option.bind_eq_some_iff.mp h
      obtain rfl := Option.some.inj h
      cases n with
      | zero => cases hn
      | succ n =>
        rw [hshift]
        exact ih hrest n v hn
    | some w =>
      obtain ⟨⟨⟨U, V, W⟩, ciph⟩, ho, h⟩ := Option.bind_eq_some_iff.mp h
      obtain ⟨share, hs, h⟩ := Option.bind_eq_some_iff.mp h
      obtain ⟨rest, hrest, h⟩ := Option.bind_eq_some_iff.mp h
      obtain rfl := Option.some.inj h
      cases n with
      | zero =>
        obtain rfl := Option.some.inj (Option.some.inj hn)
        intro U' V' W' ciph' ho'
        obtain ⟨hx, -⟩ := Prod.mk.inj (Option.some.inj (ho.symm.trans ho'))
        obtain ⟨rfl, -⟩ := Prod.mk.inj hx
        unfold PrivateKey.decryptShare at hs
        split at hs
        · rw [← Option.some.inj hs]
          rfl
        · cases hs
      | succ n =>
        rw [hshift]
        exact ih hrest n v hn

theorem myShares_right {SK : PrivateKey p G} {vall : List (Option Bytes)}
    {shares : List (Option G)} (h : myShares E P SK vall = some shares) : ∀ n v,
      vall[n]? = some (some v) → RightShare E P SK.SK shares n v :=
  mySharesFrom_right (A := fun _ => P) h

/-! ## plaintexts -/

theorem xor_of_check {U W : G} {V : PyObj} (h : verifyCiphertext E U V W = true) (g : G) :
    ∃ key, xor (hashG E g) V = some key ∧ key.length = 32 := by
  unfold verifyCiphertext hashH at h
  split at h
  · cases h
  · next H hH =>
    split at hH
    · next hlen =>
      obtain ⟨b, hb, -⟩ := Option.map_eq_some_iff.mp hH
      have hx : xor (hashG E g) V = some (List.zipWith (· ^^^ ·) (hashG E g) b) := by
        rw [TPKE.xor, if_pos ⟨hlen, hashG_length g⟩, hb]
        rfl
      exact ⟨_, hx, xor_length hx⟩
    · cases hH

/-- an entry that passes the check has a plaintext if it is well formed -/
theorem plaintext_iff {v : Bytes} (hc : Checked E P v) (secret : ZMod p) :
    (∃ b, plaintext E P secret v = some b) ↔ WellFormed E P v := by
  obtain ⟨U, V, W, ciph, ho, hc⟩ := hc
  obtain ⟨key, hkey, hlen⟩ := xor_of_check hc (U ^ secret.val)
  have hplain : plaintext E P secret v = TPKE.decrypt E key ciph := by
    simp only [plaintext, ho, hkey, Option.bind_eq_bind, Option.bind_some]
  rw [hplain, decryptable_iff hlen]
  refine ⟨fun hd => ⟨U, V, W, ciph, ho, hc, hd⟩, ?_⟩
  rintro ⟨U', V', W', ciph', ho', -, hd⟩
  obtain ⟨-, rfl⟩ := Prod.mk.inj (Option.some.inj (ho.symm.trans ho'))
  exact hd

theorem WellFormed.checked {v : Bytes} (h : WellFormed E P v) : Checked E P v := by
  obtain ⟨U, V, W, ciph, ho, hc, -⟩ := h
  exact ⟨U, V, W, ciph, ho, hc⟩

/-- **the proposal of an honest party** is well formed, and its plaintext is what was proposed -/
theorem propose_spec {N k : ℕ} {secret : ZMod p} {rest : List (ZMod p)} {prop : List ℕ}
    {key iv v : Bytes} {r : ZMod p}
    (h : propose E P (publicKey E N k (secret :: rest)) prop key r iv = some v) :
    WellFormed E P v ∧ ∃ b, encodeUtf8 prop = some b ∧ plaintext E P secret v = some b := by
  obtain ⟨c, hc, h⟩ := Option.bind_eq_some_iff.mp h
  obtain ⟨⟨U, V, W⟩, hU, h⟩ := Option.bind_eq_some_iff.mp h
  obtain ⟨⟨U', V', W'⟩, hs, h⟩ := Option.bind_eq_some_iff.mp h
  obtain ⟨hV, -, hcheck, hkey⟩ := encrypt_spec hU
  obtain ⟨b, hb, hdec⟩ := decrypt_encrypt hc
  unfold serializeUVW at hs
  dsimp only at hs
  split at hs
  · next hlen =>
    obtain ⟨rfl, hVW⟩ := Prod.mk.inj (Option.some.inj hs)
    obtain ⟨rfl, rfl⟩ := Prod.mk.inj hVW
    have hbytes : ∀ {x : Bytes} {n : ℕ}, x.length = n → (PyObj.bytes x).len = some n := by
      rintro x _ rfl
      exact PyObj.len_of_bytesLike rfl
    have hdes : deserializeUVW E (.bytes (E.serialize U)) (.bytes V) (.bytes (E.serialize W)) =
        some (U, .bytes V, W) := by
      rw [deserializeUVW, if_pos ⟨hbytes hlen.1, hbytes hV, hbytes hlen.2.2⟩]
      simp only [PyObj.bytesLike, Option.bind_some, E.deserialize1_serialize,
        E.deserialize2_serialize, Option.bind_eq_bind]
    have ho : opened E P v = some ((U, .bytes V, W), .bytes c) := by
      simp only [opened, P.loads_dumps _ _ _ _ _ h, Option.bind_eq_bind, Option.bind_some,
        PyObj.items, hdes, Option.map_some]
    have hplain : plaintext E P secret v = some b := by
      simp only [plaintext, ho, Option.bind_eq_bind, Option.bind_some]
      rw [show xor (hashG E (U ^ secret.val)) (.bytes V) = some key from hkey]
      exact hdec
    exact ⟨(plaintext_iff ⟨U, _, W, _, ho, hcheck⟩ secret).mp ⟨b, hplain⟩, b, hb, hplain⟩
  · cases hs

/-- such a proposal is a pickle of byte strings, and unpickles to the same object each time -/
theorem propose_loads {P P' : Pickle} (hdumps : P'.dumps = P.dumps) {PK : PublicKey G}
    {prop : List ℕ} {key iv v : Bytes} {r : ZMod p} (h : propose E P PK prop key r iv = some v) :
    P'.loads v = P.loads v := by
  obtain ⟨c, -, h⟩ := Option.bind_eq_some_iff.mp h
  obtain ⟨⟨U, V, W⟩, -, h⟩ := Option.bind_eq_some_iff.mp h
  obtain ⟨⟨U', V', W'⟩, -, h⟩ := Option.bind_eq_some_iff.mp h
  rw [P.loads_dumps _ _ _ _ _ h, P'.loads_dumps _ _ _ _ _ (hdumps ▸ h)]

end Block
