import HoneyBadgerBFT.HoneyBadgerBlock.Safety

/-!
# One block of HoneyBadgerBFT: what stops it

* `proposals_iff`   with right shares the block goes through if and only if all entries are well
                    formed, those of Byzantine proposers too;
* `shares_iff`      with well-formed entries it goes through if and only if the first `f+1` senders
                    have sent right shares, the Byzantine ones too.
-/

set_option linter.unusedSectionVars false

namespace Block
open TPKE

variable {p : ℕ} [Fact p.Prime] {G T : Type} [CommGroup G] [CommGroup T] [DecidableEq T]

/-! ## lists -/

section
variable {α β : Type}

theorem exists_mapM {g : α → Option β} {l : List α} (h : ∀ x ∈ l, ∃ y, g x = some y) :
    ∃ l', l.mapM g = some l' := by
  induction l with
  | nil => exact ⟨[], rfl⟩
  | cons x l ih =>
    obtain ⟨y, hy⟩ := h x List.mem_cons_self
    obtain ⟨l', hl⟩ := ih fun z hz => h z (List.mem_cons_of_mem _ hz)
    exact ⟨y :: l', by rw [List.mapM_cons, hy, hl]; rfl⟩

theorem filterMap_of_mapM {g : α → Option β} {l : List α} : ∀ {l' : List β},
    l.mapM g = some l' → l.filterMap g = l' := by
  induction l with
  | nil =>
    intro l' h
    exact Option.some.inj h
  | cons x l ih =>
    intro l' h
    rw [List.mapM_cons] at h
    obtain ⟨y, hy, h⟩ := Option.bind_eq_some_iff.mp h
    obtain ⟨ys, hys, h⟩ := Option.bind_eq_some_iff.mp h
    rw [List.filterMap_cons_some hy, ih hys]
    exact Option.some.inj h

theorem filterMap_sublist {g g' : α → Option β} {l : List α}
    (h : ∀ x ∈ l, ∀ y, g x = some y → g' x = some y) :
    (l.filterMap g).Sublist (l.filterMap g') := by
  induction l with
  | nil => exact List.Sublist.slnil
  | cons x l ih =>
    have ih := ih fun z hz => h z (List.mem_cons_of_mem _ hz)
    cases hx : g x with
    | some y =>
      rw [List.filterMap_cons_some hx, List.filterMap_cons_some (h x List.mem_cons_self y hx)]
      exact ih.cons_cons y
    | none =>
      rw [List.filterMap_cons_none hx, List.filterMap_cons]
      split
      · exact ih
      · exact ih.cons _

end

/-! ## the honest parties -/

section
variable (E : Packages p G T) (P : Pickle) (C : Committee)

/-- `x` is what a party with its key of `SKs` makes of `vall` and sends -/
def Sent (SKs : List (PrivateKey p G)) (vall : List (Option Bytes))
    (x : Fin C.N × List (Option G)) : Prop :=
  ∃ SK, SKs[x.1.val]? = some SK ∧ myShares E P SK vall = some x.2

/-- the plaintexts of the entries of honest parties, in the order of the indices -/
def honestPlaintexts (prop : Fin C.N → List ℕ) (vall : List (Option Bytes)) : List Bytes :=
  (List.finRange C.N).filterMap fun i =>
    if C.Honest i then (vall[i.val]?.join).bind fun _ => encodeUtf8 (prop i) else none

end

section
variable {E : Packages p G T} {P : Pickle} {C : Committee} {secret : ZMod p} {rest : List (ZMod p)}
  {PK : PublicKey G} {SKs : List (PrivateKey p G)} {vall : List (Option Bytes)}
  (hdeal : dealer E C.N (C.f + 1) secret rest = some (PK, SKs))
include hdeal

theorem right_of_sent {x : Fin C.N × List (Option G)} (h : Sent E P C SKs vall x) (n : ℕ)
    (v : Bytes) (hv : vall[n]? = some (some v)) :
    RightShare E P (secretKey (secret :: rest) x.1) x.2 n v := by
  obtain ⟨SK, hSK, hshares⟩ := h
  rw [← key_eq hdeal x.1 hSK]
  exact myShares_right hshares n v hv

/-- the plaintexts of the honest parties are among those of `vall` -/
theorem honestPlaintexts_sublist {prop : Fin C.N → List ℕ} (hlen : vall.length = C.N)
    (hprop : ∀ i, C.Honest i → ∀ v, vall[i.val]? = some (some v) →
      ∃ key r iv, propose E P PK (prop i) key r iv = some v) {ds : List Bytes}
    (hds : (vall.filterMap id).mapM (plaintext E P secret) = some ds) :
    (honestPlaintexts C prop vall).Sublist ds := by
  have hvall : vall = (List.finRange C.N).map fun i => vall[i.val]?.join := by
    refine List.ext_getElem (by simp [hlen]) fun i h1 h2 => ?_
    simp [List.getElem?_eq_getElem h1]
  have hds' : ds = (List.finRange C.N).filterMap fun i =>
      (vall[i.val]?.join).bind (plaintext E P secret) := by
    rw [← filterMap_of_mapM hds]
    conv_lhs => rw [hvall]
    rw [List.filterMap_filterMap, List.filterMap_map]
    rfl
  rw [hds']
  refine filterMap_sublist fun i _ b hb => ?_
  split at hb
  · next hi =>
    obtain ⟨v, hv, hb⟩ := Option.bind_eq_some_iff.mp hb
    obtain ⟨key, r, iv, hmade⟩ := hprop i hi v (Option.join_eq_some_iff.mp hv)
    obtain ⟨-, rfl, -⟩ := dealer_spec hdeal
    obtain ⟨-, b', hb', hplain⟩ := propose_spec hmade
    rw [hv, Option.bind_some, hplain, ← hb', hb]
  · cases hb

/-! ## how a call ends -/

variable (SK : PrivateKey p G) (toAcs : Bytes) {arrivals : List (Fin C.N × List (Option G))}
  (hN : C.N < p) (henough : Enough C.N C.f vall)
include hN henough

/-- well-formed entries and right shares -/
theorem exists_returned (hwell : ∀ v, some v ∈ vall → WellFormed E P v)
    (hright : ∀ x, Early C.f arrivals x → ∀ n v, vall[n]? = some (some v) →
      RightShare E P (secretKey (secret :: rest) x.1) x.2 n v)
    (hmany : C.f + 1 ≤ (senders arrivals).card) :
    ∃ ds, honeybadgerBlock E P C.N C.f PK SK (some toAcs) vall arrivals = .returned ds ∧
      (vall.filterMap id).mapM (plaintext E P secret) = some ds := by
  obtain ⟨shares, hshares⟩ := (myShares_iff SK vall).mpr fun v hv => (hwell v hv).checked
  obtain ⟨ds, hds⟩ : ∃ ds, (vall.filterMap id).mapM (plaintext E P secret) = some ds := by
    refine exists_mapM fun v hv => ?_
    obtain ⟨o, ho, rfl⟩ := List.mem_filterMap.mp hv
    exact (plaintext_iff (hwell v ho).checked secret).mpr (hwell v ho)
  cases hrec : receive C.f arrivals [] with
  | none =>
    have := receive_eq_none_iff.mp hrec
    omega
  | some received =>
    have hdec := (decrypt_received hN hdeal hrec vall ds).mpr
      ⟨fun n v hv x hx => hright x hx n v hv, hds⟩
    have hne : myShares E P SK vall ≠ none := by
      rw [hshares]
      exact Option.some_ne_none shares
    exact ⟨ds, returned_iff.mpr ⟨Option.some_ne_none toAcs, henough, hne, received, hrec, hdec⟩, hds⟩

omit hN hdeal in
/-- a call raises if and only if an entry does not pass the check, as long as it waits -/
theorem raised_of_few (hfew : (senders arrivals).card ≤ C.f) :
    honeybadgerBlock E P C.N C.f PK SK (some toAcs) vall arrivals = .raised ↔
      ¬ ∀ v, some v ∈ vall → Checked E P v := by
  have hrec : receive C.f arrivals [] = none := receive_eq_none_iff.mpr hfew
  rw [raised_iff, ← myShares_iff SK, hrec, ← Option.ne_none_iff_exists', not_not]
  constructor
  · rintro (h | h | h | ⟨received, h, -⟩)
    · cases h
    · exact absurd henough h
    · exact h
    · cases h
  · exact fun h => .inr (.inr (.inl h))

end

/-! ## the entries of Byzantine proposers -/

/-- the outcome `o` with the vectors `arrivals`: the call goes on, and with the vectors of `f+1`
senders it returns a tuple that contains the plaintexts of the honest parties -/
def GoesOn (C : Committee) (prop : Fin C.N → List ℕ) (vall : List (Option Bytes)) {V : Type}
    (arrivals : List (Fin C.N × V)) (o : Outcome) : Prop :=
  o ≠ .raised ∧ (C.f + 1 ≤ (senders arrivals).card →
    ∃ ds, o = .returned ds ∧ (honestPlaintexts C prop vall).Sublist ds)

/-- **what an entry has to be** for a call with right shares to go on -/
theorem proposals_iff (E : Packages p G T) (P : Pickle) (C : Committee) (hN : C.N < p)
    (secret : ZMod p) (rest : List (ZMod p)) (PK : PublicKey G) (SKs : List (PrivateKey p G))
    (hdeal : dealer E C.N (C.f + 1) secret rest = some (PK, SKs)) (SK : PrivateKey p G)
    (toAcs : Bytes) (prop : Fin C.N → List ℕ) (vall : List (Option Bytes))
    (henough : Enough C.N C.f vall)
    (hprop : ∀ i, C.Honest i → ∀ v, vall[i.val]? = some (some v) →
      ∃ key r iv, propose E P PK (prop i) key r iv = some v)
    (arrivals : List (Fin C.N × List (Option G)))
    (hsent : ∀ x ∈ arrivals, C.Honest x.1 ∧ Sent E P C SKs vall x) :
    GoesOn C prop vall arrivals
        (honeybadgerBlock E P C.N C.f PK SK (some toAcs) vall arrivals) ↔
      (∀ v, some v ∈ vall → Checked E P v) ∧
        (C.f + 1 ≤ (senders arrivals).card → ∀ v, some v ∈ vall → WellFormed E P v) := by
  rcases Nat.lt_or_ge C.f (senders arrivals).card with hmany | hfew
  · -- the call has the vectors of `f+1` senders
    constructor
    · rintro ⟨-, h⟩
      obtain ⟨ds, hret, -⟩ := h hmany
      obtain ⟨-, -, hshares, -⟩ := returned_iff.mp hret
      have hchecked := (myShares_iff SK vall).mp (Option.ne_none_iff_exists'.mp hshares)
      refine ⟨hchecked, fun _ v hv => (plaintext_iff (hchecked v hv) secret).mp ?_⟩
      obtain ⟨b, -, hb⟩ := mem_of_mapM (plaintexts_of_returned hN hdeal hret) v
        (List.mem_filterMap.mpr ⟨some v, hv, rfl⟩)
      exact ⟨b, hb⟩
    · rintro ⟨-, hwell⟩
      obtain ⟨ds, hret, hds⟩ := exists_returned hdeal SK toAcs hN henough
        (hwell hmany) (fun x hx => right_of_sent hdeal (hsent x hx.mem).2) hmany
      exact ⟨by simp [hret],
        fun _ => ⟨ds, hret, honestPlaintexts_sublist hdeal henough.1 hprop hds⟩⟩
  · -- it waits
    have hraised : honeybadgerBlock E P C.N C.f PK SK (some toAcs) vall arrivals = .raised ↔ _ :=
      raised_of_few SK toAcs henough hfew
    constructor
    · rintro ⟨h, -⟩
      exact ⟨not_not.mp fun hbad => h (hraised.mpr hbad), fun hmany => absurd hmany (by omega)⟩
    · rintro ⟨hchecked, -⟩
      exact ⟨fun h => hraised.mp h hchecked, fun hmany => absurd hmany (by omega)⟩

namespace four

theorem exists_proposal (i : Fin four.N) : ∃ v, proposal i = some v := by
  have hmade : ∀ i, (proposal i).isSome = true := by decide +kernel
  exact Option.isSome_iff_exists.mp (hmade i)

/-- the honest parties are enough -/
theorem enough (o : Option Bytes) : Enough four.N four.f (vall o) := by
  obtain ⟨v0, h0⟩ := exists_proposal 0
  obtain ⟨v1, h1⟩ := exists_proposal 1
  obtain ⟨v2, h2⟩ := exists_proposal 2
  have hvall : vall o = [some v0, some v1, some v2, o] := by
    rw [← h0, ← h1, ← h2]
    rfl
  rw [hvall]
  cases o with
  | none => exact ⟨rfl, le_refl 3⟩
  | some v => exact ⟨rfl, Nat.le_succ 3⟩

theorem vall_getElem? (o : Option Bytes) (i : Fin four.N) :
    (vall o)[i.val]? = some (if four.Honest i then proposal i else o) := by
  rw [vall, List.getElem?_map, List.getElem?_eq_getElem (by simp), List.getElem_finRange]
  rfl

/-- the entries of the honest parties are their proposals -/
theorem proposed (o : Option Bytes) (i : Fin four.N) (hi : four.Honest i) (v : Bytes)
    (hv : (vall o)[i.val]? = some (some v)) :
    ∃ key r iv, propose five protocol3 PK (prop i) key r iv = some v := by
  rw [vall_getElem?, if_pos hi] at hv
  exact ⟨_, _, _, Option.some.inj hv⟩

theorem wellFormed_proposal {i : Fin four.N} {v : Bytes} (h : proposal i = some v) :
    WellFormed five protocol3 v := (propose_spec h).1

theorem wellFormed {o : Option Bytes} (ho : ∀ v, o = some v → WellFormed five protocol3 v)
    (v : Bytes) (hv : some v ∈ vall o) : WellFormed five protocol3 v := by
  obtain ⟨i, -, hi⟩ := List.mem_map.mp hv
  split at hi
  · exact wellFormed_proposal hi
  · exact ho v hi

theorem wellFormed_none (v : Bytes) (hv : some v ∈ vall none) : WellFormed five protocol3 v :=
  wellFormed (o := none) (fun _ h => by cases h) v hv

theorem sent {o : Option Bytes} (ho : ∀ v, o = some v → WellFormed five protocol3 v)
    (i : Fin four.N) :
    Sent five protocol3 four ((List.range 4).map SK) (vall o) (i, vectorOn o i) := by
  refine ⟨SK i, ?_, ?_⟩
  · show ((List.range 4).map SK)[i.val]? = _
    rw [List.getElem?_map, List.getElem?_range (show i.val < 4 from i.isLt)]
    rfl
  · obtain ⟨shares, h⟩ := (myShares_iff (SK i) (vall o)).mpr fun v hv =>
      (wellFormed ho v hv).checked
    rw [h, vectorOn, h]
    rfl

theorem sent_none (i : Fin four.N) :
    Sent five protocol3 four ((List.range 4).map SK) (vall none) (i, vector i) :=
  sent (fun _ h => by cases h) i

end four

/-- the Byzantine party proposes what an honest one might -/
theorem proposals_iff_four :
    let entry := four.proposal 3
    let arrivals := [(0, four.vectorOn entry 0), (1, four.vectorOn entry 1)]
    Enough four.N four.f (four.vall entry) ∧ (four.vall entry)[3]? = some entry ∧
      GoesOn four four.prop (four.vall entry) arrivals (four.call 0 entry arrivals) := by
  obtain ⟨toAcs, hto⟩ := four.exists_proposal 0
  have hwell : ∀ v, four.proposal 3 = some v → WellFormed five protocol3 v :=
    fun _ => four.wellFormed_proposal
  refine ⟨four.enough _, four.vall_getElem? _ 3, ?_⟩
  rw [four.call, hto]
  refine (proposals_iff five protocol3 four (by decide) 2 [1] four.PK _ four.dealt (four.SK 0) toAcs
    four.prop (four.vall (four.proposal 3)) (four.enough _) (four.proposed _) _ fun x hx => ?_).mpr
      ⟨fun v hv => (four.wellFormed hwell v hv).checked, fun _ => four.wellFormed hwell⟩
  rcases List.mem_pair.mp hx with rfl | rfl
  · exact ⟨by decide, four.sent hwell 0⟩
  · exact ⟨by decide, four.sent hwell 1⟩

/-- the Byzantine party proposes the empty string, and every call raises -/
theorem empty_proposal_raises : Enough four.N four.f (four.vall (some [])) ∧
    (∀ i, four.Honest i → (four.vall (some []))[i.val]? = some (four.proposal i)) ∧
    ∀ i arrivals, four.Honest i → ¬ GoesOn four four.prop (four.vall (some [])) arrivals
      (four.call i (some []) arrivals) := by
  have hbad : ¬ Checked five protocol3 [] := by
    rintro ⟨U, V, W, ciph, h, -⟩
    cases h
  refine ⟨four.enough _, fun i hi => ?_, fun i arrivals _ h => h.1 (raised_iff.mpr ?_)⟩
  · rw [four.vall_getElem?, if_pos hi]
  · refine .inr (.inr (.inl ?_))
    by_contra hne
    refine hbad ((myShares_iff (four.SK i) _).mp (Option.ne_none_iff_exists'.mp hne) [] ?_)
    exact List.mem_map.mpr ⟨3, List.mem_finRange _, rfl⟩

/-! ## the shares of Byzantine senders -/

/-- the outcomes `o` as the vectors `arrivals` come in: no call raises on the way, and in the end it
returns all plaintexts -/
def Decrypts (E : Packages p G T) (P : Pickle) (secret : ZMod p) (vall : List (Option Bytes))
    {V : Type} (arrivals : List V) (o : List V → Outcome) : Prop :=
  (∀ l, l <+: arrivals → o l ≠ .raised) ∧
    ∃ ds, o arrivals = .returned ds ∧ (vall.filterMap id).mapM (plaintext E P secret) = some ds

/-- **what the first vectors have to be** for a call with well-formed entries to return -/
theorem shares_iff (E : Packages p G T) (P : Pickle) (C : Committee) (hN : C.N < p)
    (secret : ZMod p) (rest : List (ZMod p)) (PK : PublicKey G) (SKs : List (PrivateKey p G))
    (hdeal : dealer E C.N (C.f + 1) secret rest = some (PK, SKs)) (SK : PrivateKey p G)
    (toAcs : Bytes) (vall : List (Option Bytes)) (henough : Enough C.N C.f vall)
    (hwell : ∀ v, some v ∈ vall → WellFormed E P v)
    (arrivals : List (Fin C.N × List (Option G)))
    (hsent : ∀ x ∈ arrivals, C.Honest x.1 → Sent E P C SKs vall x)
    (hmany : C.f + 1 ≤ ((senders arrivals).filter fun j => C.Honest j).card) :
    Decrypts E P secret vall arrivals
        (honeybadgerBlock E P C.N C.f PK SK (some toAcs) vall) ↔
      ∀ x, Early C.f arrivals x → ¬ C.Honest x.1 → ∀ n v, vall[n]? = some (some v) →
        RightShare E P (secretKey (secret :: rest) x.1) x.2 n v := by
  constructor
  · rintro ⟨-, ds, hret, -⟩ x hx _ n v hv
    obtain ⟨-, -, -, received, hrec, hdec⟩ := returned_iff.mp hret
    exact ((decrypt_received hN hdeal hrec vall ds).mp hdec).1 n v hv x hx
  · intro h
    have hright : ∀ x, Early C.f arrivals x → ∀ n v, vall[n]? = some (some v) →
        RightShare E P (secretKey (secret :: rest) x.1) x.2 n v := by
      intro x hx
      by_cases hh : C.Honest x.1
      · exact right_of_sent hdeal (hsent x hx.mem hh)
      · exact h x hx hh
    constructor
    · intro l hl
      rcases Nat.lt_or_ge C.f (senders l).card with hfull | hfew
      · obtain ⟨ds, hret, -⟩ := exists_returned hdeal SK toAcs hN henough hwell
          (fun x hx => hright x (hx.of_prefix hl)) hfull
        rw [hret]
        intro h
        cases h
      · exact fun hraised =>
          (raised_of_few SK toAcs henough hfew).mp hraised fun v hv => (hwell v hv).checked
    · exact exists_returned hdeal SK toAcs hN henough hwell hright
        (hmany.trans (Finset.card_le_card (Finset.filter_subset _ _)))

namespace four

/-- vectors of the parties 0 and 1 after the vector `shares` of the Byzantine party -/
def arrivals (shares : List (Option Z5)) : List (Fin four.N × List (Option Z5)) :=
  [(3, shares), (0, vector 0), (1, vector 1)]

theorem arrivals_sent {shares : List (Option Z5)} {x : Fin four.N × List (Option Z5)}
    (hx : x ∈ arrivals shares) (h : four.Honest x.1 ∨ shares = vector 3) :
    Sent five protocol3 four ((List.range 4).map SK) (vall none) x := by
  simp only [arrivals, List.mem_cons, List.not_mem_nil, or_false] at hx
  rcases hx with rfl | rfl | rfl
  · rcases h with h | h
    · exact absurd h (show ¬ four.Honest 3 by decide)
    · rw [h]
      exact sent_none 3
  · exact sent_none 0
  · exact sent_none 1

end four

theorem shares_iff_four : Decrypts five protocol3 2 (four.vall none)
    (four.arrivals (four.vector 3)) (four.call 0 none) := by
  obtain ⟨toAcs, hto⟩ := four.exists_proposal 0
  have := (shares_iff five protocol3 four (by decide) 2 [1] four.PK _ four.dealt (four.SK 0) toAcs
    (four.vall none) (four.enough none) four.wellFormed_none (four.arrivals (four.vector 3))
    (fun x hx hh => four.arrivals_sent hx (.inl hh)) (by decide)).mpr
      fun x hx _ => right_of_sent four.dealt (four.arrivals_sent hx.mem (.inr rfl))
  rwa [← hto] at this

/-- the first vector is that of the Byzantine party and empty; with the next one the call raises -/
theorem empty_vector_raises : Enough four.N four.f (four.vall none) ∧
    (∀ v, some v ∈ four.vall none → WellFormed five protocol3 v) ∧
    (∀ x ∈ four.arrivals [], four.Honest x.1 →
      Sent five protocol3 four ((List.range 4).map four.SK) (four.vall none) x) ∧
    four.f + 1 ≤ ((senders (four.arrivals [])).filter fun j => four.Honest j).card ∧
    ¬ Decrypts five protocol3 2 (four.vall none) (four.arrivals []) (four.call 0 none) := by
  refine ⟨four.enough none, four.wellFormed_none, fun x hx hh => four.arrivals_sent hx (.inl hh),
    by decide, fun h => ?_⟩
  refine h.1 [(3, []), (0, four.vector 0)] ⟨[(1, four.vector 1)], rfl⟩ ?_
  decide +kernel

end Block
