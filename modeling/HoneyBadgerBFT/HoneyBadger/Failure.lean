import HoneyBadgerBFT.HoneyBadger.Inclusion

/-!
# HoneyBadgerBFT: when a round fails

A call of `_run_round` raises where one of its assertions fails, or a value cannot be read.  In a run
of the committee an honest party's call raises for three reasons only (`raised_iff_byzantine`): its
own transaction cannot be encoded, the common subset has a malformed entry, which a Byzantine party
has proposed, or one of the vectors that it uses has a wrong share, and comes from a Byzantine party.
-/

namespace HoneyBadger
open Async Trans

variable {C : Committee} {S : Setup C} {r : ℤ} {pid : Fin C.N} {s : State S}

/-! ## the vectors of honest parties -/

/-- the vector that is sent is made of the tuple of the common subset -/
theorem reached_shares {nd : Node C.N S.Obj S.Msg} (h : (system S).ReachableAlone pid nd) :
    ∀ r x, nd.st.rounds r = some x → x.myShares = x.vall.bind (Round.shares S pid) := by
  refine rounds_invariant (fun _ x => x.myShares = x.vall.bind (Round.shares S pid))
    (fun _ _ _ _ _ => rfl) (fun r x a y hx hs => ?_) (fun r x src i m hx hl => ?_) h
  · cases hs with
    | acsOut hto hvall hmain => rfl
    | _ => exact hx
  · obtain ⟨hvall, hshares, -⟩ := Round.recv_shares r pid src i m x
    rw [hvall, hshares]
    exact hx

/-- what `tpke_recv()` returns, is what its slot has taken -/
theorem mem_arrivals {p : Fin C.N} {x : S.Call} (hx : (s p).st.rounds r = some x)
    {y : Fin C.N × List (Option S.tpke.G)} :
    y ∈ x.arrivals ↔ y ∈ ((tpkeSlot S r).net s p).rcvd := by
  have hview : ((tpkeSlot S r).net s p).rcvd = (x.rcvd .TPKE).filterMap (tpkeSlot S r).entry :=
    net_rcvd hx
  have hentry : x.arrivals = (x.rcvd .TPKE).reverse.filterMap (tpkeSlot S r).entry := by
    refine List.filterMap_congr fun z _ => ?_
    obtain ⟨src, m⟩ := z
    cases m <;> rfl
  rw [hview, hentry, List.filterMap_reverse, List.mem_reverse]

/-- **the vector of an honest party is right**, at every party that gets it -/
theorem sent_of_honest (h : Running S s) (hc : NoCollision S r s) {p : Fin C.N} (hp : C.Honest p)
    {x : S.Call} (hx : (s p).st.rounds r = some x) {vall : List (Option Bytes)}
    (hv : x.vall = some vall) {y : Fin C.N × List (Option S.tpke.G)} (hy : y ∈ x.arrivals)
    (hsrc : C.Honest y.1) :
    Block.Sent S.tpke.packages S.pickle C (List.ofFn S.tpke.eSK) vall y := by
  have hsent := (tpkeSlot S r).authentic (tpkeSlot_sound S r) h hp hsrc
    ((mem_arrivals hx).mp hy)
  replace hsent : y.2 ∈ ((tpkeSlot S r).net s y.1).st.toList := hsent
  rw [Option.mem_toList] at hsent
  cases hz : (s y.1).st.rounds r with
  | none =>
    rw [net_none hz] at hsent
    cases hsent
  | some z =>
    rw [net_some hz] at hsent
    replace hsent := (reached_shares (reach_alone h y.1) r z hz).symm.trans hsent
    obtain ⟨vall', hv', hshares⟩ := Option.bind_eq_some_iff.mp hsent
    obtain rfl := vall_unique h hp hsrc hc hx hz hv hv'
    obtain ⟨-, hshares⟩ := Option.ite_none_right_eq_some.mp hshares
    refine ⟨S.tpke.eSK y.1, ?_, hshares⟩
    rw [List.getElem?_ofFn, dif_pos y.1.isLt]

/-! ## the end of a call -/

/-- an entry of a Byzantine party that is not as it should be -/
def BadEntry (C : Committee) (vall : List (Option Bytes)) (good : Bytes → Prop) : Prop :=
  ∃ j : Fin C.N, ¬ C.Honest j ∧ ∃ v, vall[j.val]? = some (some v) ∧ ¬ good v

/-- a vector of a Byzantine party that the call uses, and that has a wrong share -/
def BadShare (S : Setup C) (vall : List (Option Bytes))
    (arrivals : List (Fin C.N × List (Option S.tpke.G))) : Prop :=
  ∃ y, Block.Early C.f arrivals y ∧ ¬ C.Honest y.1 ∧ ∃ n v, vall[n]? = some (some v) ∧
    ¬ Block.RightShare S.tpke.packages S.pickle
      (TPKE.secretKey (S.tpke.secret :: S.tpke.rest) y.1) y.2 n v

section
variable (h : Running S s) (hc : NoCollision S r s) {p : Fin C.N} (hp : C.Honest p)
include h hc hp

/-- the tuple of the common subset is what the block asserts -/
theorem enough {values : Fin C.N → Option Bytes}
    (hm : ((acsSlot S r).net s p).st.main = .returned values) :
    Block.Enough C.N C.f (List.ofFn values) := by
  refine ⟨List.length_ofFn, ?_⟩
  rw [List.length_filterMap_eq_countP]
  exact (ACS.card_entries (acs_reached h hc) hp hm).trans (RBC.countP_ofFn values).ge

variable (hconf : NotConfused S r s)
include hconf

/-- an entry that is not well formed is one of a Byzantine party -/
theorem badEntry {x : S.Call} (hx : (s p).st.rounds r = some x) {vall : List (Option Bytes)}
    (hv : x.vall = some vall) {good : Bytes → Prop}
    (hgood : ∀ v, Block.WellFormed S.tpke.packages S.pickle v → good v) {v : Bytes}
    (hmem : some v ∈ vall) (hbad : ¬ good v) : BadEntry C vall good := by
  obtain ⟨values, hm, rfl⟩ := (reached_wired (reach_alone h p) r x hx).vall vall hv
  replace hm : ((acsSlot S r).net s p).st.main = .returned values := (net_some hx).symm ▸ hm
  obtain ⟨j, hj⟩ := List.mem_ofFn.mp hmem
  refine ⟨j, fun hhon => ?_, v, ?_, hbad⟩
  · obtain ⟨y, hy, hto⟩ := entry_of_honest h hc hconf hp hhon hm hj
    obtain ⟨tx, -, key, rnd, iv, hprop⟩ := (reached_proposes (reach_alone h j)).proposed r y hy
    obtain ⟨-, hePK, -⟩ := TPKE.dealer_spec S.tpke.dealt
    rw [hto, hePK] at hprop
    exact hbad (hgood v (Block.propose_spec hprop.symm).1)
  · rw [List.getElem?_ofFn, dif_pos j.isLt, hj]

/-- a call whose vectors are there raises for a malformed entry or a wrong share -/
theorem bad_of_undecrypted {x : S.Call} (hx : (s p).st.rounds r = some x)
    {vall : List (Option Bytes)} (hv : x.vall = some vall)
    {received : List (Fin C.N × List (Option S.tpke.G))}
    (hrec : Block.receive C.f x.arrivals [] = some received)
    (hdec : Block.decryptFrom S.tpke.packages (fun _ => S.pickle) S.tpke.ePK received 0 vall = none) :
    BadEntry C vall (Block.WellFormed S.tpke.packages S.pickle) ∨ BadShare S vall x.arrivals := by
  by_contra hno
  obtain ⟨hentry, hshare⟩ := not_or.mp hno
  have hwell : ∀ v, some v ∈ vall → Block.WellFormed S.tpke.packages S.pickle v := by
    intro v hmem
    by_contra hbad
    exact hentry (badEntry h hc hp hconf hx hv (fun _ hw => hw) hmem hbad)
  obtain ⟨ds, hds⟩ : ∃ ds, (vall.filterMap id).mapM
      (Block.plaintext S.tpke.packages S.pickle S.tpke.secret) = some ds := by
    refine Block.exists_mapM fun v hmem => ?_
    obtain ⟨o, ho, rfl⟩ := List.mem_filterMap.mp hmem
    exact (Block.plaintext_iff (hwell v ho).checked _).mpr (hwell v ho)
  have hright : ∀ n v, vall[n]? = some (some v) → ∀ y, Block.Early C.f x.arrivals y →
      Block.RightShare S.tpke.packages S.pickle
        (TPKE.secretKey (S.tpke.secret :: S.tpke.rest) y.1) y.2 n v := by
    intro n v hn y hy
    by_cases hsrc : C.Honest y.1
    · exact Block.right_of_sent S.tpke.dealt (sent_of_honest h hc hp hx hv hy.mem hsrc) n v hn
    · by_contra hwrong
      exact hshare ⟨y, hy, hsrc, n, v, hn, hwrong⟩
  have hsome := (Block.decrypt_received S.tpke.lt S.tpke.dealt hrec vall ds).mpr ⟨hright, hds⟩
  rw [hdec] at hsome
  cases hsome

end

/-- a malformed entry, or a wrong share: the vectors do not decrypt -/
theorem undecrypted_of_bad {vall : List (Option Bytes)}
    {arrivals received : List (Fin C.N × List (Option S.tpke.G))}
    (hrec : Block.receive C.f arrivals [] = some received)
    (hshares : ∀ v, some v ∈ vall → Block.Checked S.tpke.packages S.pickle v)
    (hbad : BadEntry C vall (Block.WellFormed S.tpke.packages S.pickle) ∨ BadShare S vall arrivals) :
    Block.decryptFrom S.tpke.packages (fun _ => S.pickle) S.tpke.ePK received 0 vall = none := by
  by_contra hne
  obtain ⟨ds, hds⟩ := Option.ne_none_iff_exists'.mp hne
  obtain ⟨hright, hplain⟩ :=
    (Block.decrypt_received S.tpke.lt S.tpke.dealt hrec vall ds).mp hds
  rcases hbad with ⟨j, -, v, hv, hbad⟩ | ⟨y, hy, -, n, v, hv, hbad⟩
  · have hmem : some v ∈ vall := List.mem_of_getElem? hv
    obtain ⟨b, -, hb⟩ := Block.mem_of_mapM hplain v (List.mem_filterMap.mpr ⟨some v, hmem, rfl⟩)
    exact hbad ((Block.plaintext_iff (hshares v hmem) _).mp ⟨b, hb⟩)
  · exact hbad (hright n v hv y hy)

/-- **when a round fails**: the call of an honest party raises if and only if its own transaction
cannot be encoded, an entry of a Byzantine party does not pass the check, or, once vectors of `f+1`
parties are there, such an entry is malformed or one of these vectors, a Byzantine party's, has a
wrong share -/
theorem raised_iff_byzantine (C : Committee) (S : Setup C) (s : State S) (h : Running S s) (r : ℤ)
    (hc : NoCollision S r s) (hconf : NotConfused S r s) (p : Fin C.N) (hp : C.Honest p) (x : S.Call)
    (hx : (s p).st.rounds r = some x) :
    x.outcome S p = .raised ↔ x.toAcs = none ∨ ∃ vall, x.vall = some vall ∧
      (BadEntry C vall (Block.Checked S.tpke.packages S.pickle) ∨
        C.f < (Block.senders x.arrivals).card ∧
          (BadEntry C vall (Block.WellFormed S.tpke.packages S.pickle) ∨
            BadShare S vall x.arrivals)) := by
  unfold Round.outcome
  by_cases hto : x.toAcs = none
  · rw [if_pos hto]
    exact ⟨fun _ => .inl hto, fun _ => rfl⟩
  rw [if_neg hto]
  cases hv : x.vall with
  | none =>
    have hacs := acs_reached h hc
    have hmain : ((acsSlot S r).net s p).st.main = x.acs.main :=
      congrArg ACS.Party.main (net_some (K := acsSlot S r) hx)
    have hfew := hmain ▸ ACS.not_fewCommitted hacs hp
    have hno := hmain ▸ ACS.not_noValue hacs hp
    constructor
    · intro hout
      dsimp only at hout
      split at hout
      · next e => exact absurd e hfew
      · next e => exact absurd e hno
      · cases hout
    · rintro (hnone | ⟨vall, hvall, -⟩)
      · exact absurd hnone hto
      · cases hvall
  | some vall =>
    obtain ⟨values, hm, rfl⟩ := (reached_wired (reach_alone h p) r x hx).vall vall hv
    replace hm : ((acsSlot S r).net s p).st.main = .returned values := (net_some hx).symm ▸ hm
    have henough := enough h hc hp hm
    dsimp only
    rw [Block.raised_iff]
    constructor
    · rintro (hnone | hfew | hshares | ⟨received, hrec, hdec⟩)
      · exact absurd hnone hto
      · exact absurd henough hfew
      · refine .inr ⟨_, rfl, .inl ?_⟩
        have hbad : ¬ ∀ v, some v ∈ List.ofFn values → Block.Checked S.tpke.packages S.pickle v := by
          intro hall
          obtain ⟨shares, hsome⟩ := (Block.myShares_iff (S.tpke.eSK p) _).mpr hall
          cases hshares.symm.trans hsome
        push Not at hbad
        obtain ⟨v, hmem, hbad⟩ := hbad
        exact badEntry h hc hp hconf hx hv (fun _ hw => hw.checked) hmem hbad
      · refine .inr ⟨_, rfl, .inr ⟨?_, bad_of_undecrypted h hc hp hconf hx hv hrec hdec⟩⟩
        by_contra hle
        rw [Block.receive_eq_none_iff.mpr (not_lt.mp hle)] at hrec
        cases hrec
    · rintro (hnone | ⟨vall, hvall, ⟨j, -, v, hj, hbad⟩ | ⟨hmany, hbad⟩⟩)
      · exact absurd hnone hto
      · obtain rfl := Option.some.inj hvall
        refine .inr (.inr (.inl ?_))
        by_contra hne
        obtain hall := (Block.myShares_iff (S.tpke.eSK p) _).mp (Option.ne_none_iff_exists'.mp hne)
        exact hbad (hall v (List.mem_of_getElem? hj))
      · obtain rfl := Option.some.inj hvall
        by_cases hall : ∀ v, some v ∈ List.ofFn values → Block.Checked S.tpke.packages S.pickle v
        · cases hrec : Block.receive C.f x.arrivals [] with
          | none =>
            have := Block.receive_eq_none_iff.mp hrec
            omega
          | some received =>
            exact .inr (.inr (.inr ⟨received, rfl, undecrypted_of_bad hrec hall hbad⟩))
        · refine .inr (.inr (.inl ?_))
          by_contra hne
          exact hall ((Block.myShares_iff (S.tpke.eSK p) _).mp (Option.ne_none_iff_exists'.mp hne))

namespace four

theorem opened_entry : (Block.opened Block.five Block.protocol3 entry).isSome = true := by
  decide +kernel

/-- the empty vector has no share for the Byzantine entry -/
theorem Misled.badShare {x : setup.Call} (h : Misled x) : ∃ vall, x.vall = some vall ∧
    Committee.four.f < (Block.senders x.arrivals).card ∧ BadShare setup vall x.arrivals := by
  obtain ⟨-, hany, hhead, hcard⟩ := h
  obtain ⟨vall, hv, hentry⟩ := (Option.any_eq_true ..).mp hany
  obtain ⟨l, hl⟩ := List.head?_eq_some_iff.mp hhead
  refine ⟨vall, hv, hcard, (3, []), ⟨[], l, hl, by decide, by decide⟩, by decide, 3, entry,
    of_decide_eq_true hentry, fun hright => ?_⟩
  obtain ⟨⟨⟨U, V, W⟩, ciph⟩, ho⟩ := Option.isSome_iff_exists.mp opened_entry
  cases hright U V W ciph ho

end four

theorem raised_iff_byzantine_four : ∃ x vall, (four.last 0).st.rounds 0 = some x ∧
    x.vall = some vall ∧ BadShare four.setup vall x.arrivals ∧
      x.outcome four.setup 0 = .raised := by
  obtain ⟨x, hx, hm⟩ := (Option.any_eq_true ..).mp four.evaluated.1.2
  obtain ⟨vall, hv, hcard, hbad⟩ := four.Misled.badShare (of_decide_eq_true hm)
  exact ⟨x, vall, hx, hv, hbad, (raised_iff_byzantine Committee.four four.setup four.last four.running 0
    (four.noCollision 0) (four.notConfused 0 four.last) 0 (by decide) x hx).mpr
      (.inr ⟨vall, hv, .inr ⟨hcard, .inr hbad⟩⟩)⟩

end HoneyBadger
