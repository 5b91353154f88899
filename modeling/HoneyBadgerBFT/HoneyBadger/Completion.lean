import HoneyBadgerBFT.CommonSubset.Progress
import HoneyBadgerBFT.HoneyBadger.Coins
import HoneyBadgerBFT.HoneyBadger.Failure
import HoneyBadgerBFT.HoneyBadger.Quiet
import HoneyBadgerBFT.ReliableBroadcast.Delivery

/-!
# HoneyBadgerBFT: a round comes to its end

When nothing can happen in a round any more, every honest call of it has ended (`round_ends`).  The
sub-protocols are taken in the order in which they wait for each other: the broadcasts, the
agreements with their coins, the common subset, and the block.
-/

namespace RBC

theorem start_m {C : Committee} {S : Setup C} {m : Text} {code : List Bytes}
    (h : encode S.zfec m = some code) (p : Party C.N) : (p.start S m).m = some m := by
  unfold Party.start
  rw [h]

end RBC

namespace HoneyBadger
open Async Trans

variable {C : Committee} {S : Setup C} {r : ℤ} {pid : Fin C.N} {s : State S}

/-! ## the broadcasts -/

/-- the own broadcast of a party keeps its input -/
theorem reached_m {nd : Node C.N S.Obj S.Msg} (h : (system S).ReachableAlone pid nd) :
    ∀ r x, nd.st.rounds r = some x → (x.rbc pid).status = .input ∨ (x.rbc pid).m ≠ none := by
  refine rounds_invariant (fun _ x => (x.rbc pid).status = .input ∨ (x.rbc pid).m ≠ none)
    (fun r tx key rnd iv => .inl (if_pos rfl)) (fun r x a y hx hs => ?_)
    (fun r x src i m hx hl => ?_) h
  · cases hs with
    | @rbcInput b z hb hz =>
      right
      show (Function.update x.rbc pid z pid).m ≠ none
      rw [Function.update_self]
      have hsmall := S.small
      obtain ⟨w, hw, -⟩ := RBC.padded_of_le (RBC.K_pos C) (by omega) b
      have hcode := RBC.encode_bytes (S.rbc pid).zfec (by omega) (m := .bytes b) rfl hw
      have hm : z.m = some (.bytes b) :=
        (congrArg RBC.Party.m (RBC.act_cases hz).2).trans (RBC.start_m hcode _)
      rw [hm]
      exact Option.some_ne_none _
    | _ => exact hx
  · cases i with
    | ACS_RBC j =>
      cases m with
      | rbc m =>
        show (Function.update x.rbc j _ pid).status = .input ∨
          (Function.update x.rbc j _ pid).m ≠ none
        by_cases hj : pid = j
        · subst hj
          rw [Function.update_self]
          have hrun : (x.rbc pid).status = .running := of_decide_eq_true hl
          have hm : ((RBC.protocol (S.rbc pid)).recv pid src m (x.rbc pid)).m = (x.rbc pid).m :=
            (RBC.recv_turn pid src m _).m
          refine .inr (hm.trans_ne (hx.resolve_left fun e => ?_))
          cases hrun.symm.trans e
        · rw [Function.update_of_ne hj]
          exact hx
      | _ => exact hx
    | _ => cases m <;> exact hx

section
variable {x : Fin C.N → S.Call} (h : Running S s) (hq : Quiet S r s)
  (hx : ∀ p, C.Honest p → TakesPart S r s p (x p))
include h hq hx

/-- the broadcasts have started -/
theorem rbc_started {p : Fin C.N} (hp : C.Honest p) (j : Fin C.N) :
    ((rbcSlot S r j).net s p).st.status ≠ .input := by
  intro hin
  obtain ⟨rfl, -⟩ := (RBC.reached_call (S.rbc j) (rbc_reached h r j) p hp).outcome.input hin
  rw [net_some (hx p hp).call] at hin
  have hnone := hq.inner_none hp (hx p hp) .rbcInput
  obtain ⟨m, hm⟩ := Option.ne_none_iff_exists'.mp (hx p hp).proposal
  have hz : (RBC.protocol (S.rbc p)).act p (.bytes m) ((x p).rbc p) =
      some (((x p).rbc p).start (S.rbc p) (.bytes m)) := if_pos hin
  replace hnone : (do
    let m ← (x p).toAcs
    let y ← (RBC.protocol (S.rbc p)).act p (.bytes m) ((x p).rbc p)
    some { x p with rbc := Function.update (x p).rbc p y }) = none := hnone
  rw [hm, Option.bind_eq_bind, Option.bind_some, hz] at hnone
  cases hnone

/-- a broadcast that still runs has all its messages -/
theorem rbc_delivered {p : Fin C.N} (hp : C.Honest p) (j : Fin C.N)
    (hrun : ((rbcSlot S r j).net s p).st.status = .running) :
    Delivered (RBC.protocol (S.rbc j)) ((rbcSlot S r j).net s) p := by
  rw [net_some (hx p hp).call] at hrun
  exact delivered_of_quiet hq hp (hx p hp) h (rbcSlot_sound S r j) (decide_eq_true hrun)

variable (hc : NoCollision S r s) (hfit : ∀ p, C.Honest p → ∀ b, (x p).toAcs = some b →
  RBC.Restored (C.N - 2 * C.f) (b.length % (C.N - 2 * C.f)))

include hc in
/-- a broadcast that one party has returned, all have -/
theorem rbc_beside {p q : Fin C.N} (hp : C.Honest p) (hq' : C.Honest q) {j : Fin C.N}
    (hret : RBC.Returned ((rbcSlot S r j).net s) p) : RBC.Returned ((rbcSlot S r j).net s) q :=
  RBC.returned_beside (rbc_reached h r j) S.small (hc j)
    (fun _ ha hrun => rbc_delivered h hq hx ha j hrun) (fun _ ha => rbc_started h hq hx ha j) hp hq'
    hret

include hc hfit in
/-- the broadcast of an honest party has been returned -/
theorem rbc_of_honest {p j : Fin C.N} (hp : C.Honest p) (hj : C.Honest j) :
    RBC.Returned ((rbcSlot S r j).net s) p := by
  have hst := rbc_started h hq hx hj j
  rw [net_some (hx j hj).call] at hst
  have hm := (reached_m (reach_alone h j) r (x j) (hx j hj).call).resolve_left hst
  obtain ⟨m, hm⟩ := Option.ne_none_iff_exists'.mp hm
  obtain ⟨b, hto, rfl⟩ := reached_input (reach_alone h j) r (x j) (hx j hj).call m hm
  refine ⟨b, RBC.returned_of_started (rbc_reached h r j) S.small (hc j)
    (fun _ ha hrun => rbc_delivered h hq hx ha j hrun) (fun _ ha => rbc_started h hq hx ha j) hj ?_
    (hfit j hj b hto) hp⟩
  exact (congrArg RBC.Party.m (net_some (K := rbcSlot S r j) (hx j hj).call)).trans hm

end

/-! ## the agreements -/

/-- no agreement of the round has got a message of a Byzantine party twice -/
def NoRepeats (S : Setup C) (r : ℤ) (s : State S) : Prop :=
  ∀ j p, C.Honest p → ∀ src, ¬ C.Honest src → ∀ m,
    ((abaSlot S r j).net s p).rcvd.count (src, m) ≤ 1

/-- what has been taken stays -/
theorem NoRepeats.before {t : State S} (h : Running S s)
    {e : Label C.N S.Msg (Object.Act C.N S.tpke.p)}
    (hn : (system S).next wellFormed s e = some t) (ht : NoRepeats S r t) : NoRepeats S r s := by
  intro j p hp src hsrc m
  refine le_trans ?_ (ht j p hp src hsrc m)
  rcases (abaSlot S r j).next_net (abaSlot_sound S r j) h hn p with he | ⟨o, ho⟩
  · rw [he]
  · rw [rcvd_alone ho]
    exact Nat.le_add_right ..

/-- the assumption of `BA.progress` -/
theorem aba_once (h : Running S s) (hr : NoRepeats S r s) (j : Fin C.N) :
    BA.Reached C BA.AtMostOnce ((abaSlot S r j).net s) := by
  have hrun := Reach.restrict_next (D := NoRepeats S r)
    (fun a e b ha _ hn hb => hb.before ha hn) h hr
  have hsound := (abaSlot S r j).component_sound (abaSlot_sound S r j)
  refine Slot.reach (abaSlot_sound S r j) (fun _ _ hm _ hx => wellFormed_aba hm hx)
    (fun s p a y o hs hp hok hy ho => ?_) hrun
  cases o with
  | act b => trivial
  | receive src m =>
    intro hsrc hmem
    have hn : (system S).next wellFormed s (.act p a) =
        some (Function.update s p ⟨y, (s p).rcvd⟩) := by
      refine (if_pos hp).trans ?_
      rw [hy]
      rfl
    have hone := hok.2 _ hn j p hp src hsrc m
    have hview := hsound.act_some p (s p) a y _ (reach_alone hs p) hy ho
    have hcount := rcvd_alone hview (src, m)
    have hpos := List.count_pos_iff.mpr hmem
    have hself : (abaSlot S r j).net (Function.update s p ⟨y, (s p).rcvd⟩) p =
        (abaSlot S r j).component.view p y := by
      show (abaSlot S r j).component.view p (Function.update s p ⟨y, (s p).rcvd⟩ p).st = _
      rw [Function.update_self]
    rw [hself, hcount] at hone
    change 0 < ((abaSlot S r j).component.view p (s p).st).rcvd.count (src, m) at hpos
    change _ + [(src, m)].count (src, m) ≤ 1 at hone
    rw [List.count_singleton_self] at hone
    omega

section
variable {x : Fin C.N → S.Call} (h : Running S s) (hq : Quiet S r s)
  (hx : ∀ p, C.Honest p → TakesPart S r s p (x p)) {j : Fin C.N}
include h hq hx

omit h in
/-- an agreement whose input is there has got it -/
theorem aba_begun {p : Fin C.N} (hp : C.Honest p) {v : Bool} (hv : (j, v) ∈ (x p).acs.abaIn) :
    ((x p).aba j).pc ≠ .input := by
  intro hpc
  have hnone := hq.inner_none hp (hx p hp) (.abaInput j)
  obtain ⟨w, hw⟩ : ∃ w, (x p).abaInputs j = some w := by
    refine Option.isSome_iff_exists.mp ?_
    unfold Round.abaInputs
    rw [Option.isSome_map, List.find?_isSome]
    exact ⟨(j, v), List.mem_reverse.mpr hv, decide_eq_true rfl⟩
  have hz : (BA.protocol C).act p (.input w) ((x p).aba j) = some { (x p).aba j with
      est := w, r := 0, alreadyDecided := none, pc := .top } := if_pos hpc
  replace hnone : (do
    let v ← (x p).abaInputs j
    let y ← (BA.protocol C).act p (.input v) ((x p).aba j)
    some { x p with aba := Function.update (x p).aba j y }) = none := hnone
  rw [hw, Option.bind_eq_bind, Option.bind_some, hz] at hnone
  cases hnone

omit h in
/-- the main loop of an agreement has nothing to do -/
theorem aba_blocked {p : Fin C.N} (hp : C.Honest p) :
    ((x p).aba j).mainStep C.f = none := by
  have hnone := hq.inner_none hp (hx p hp) (.abaMain j)
  cases hz : ((x p).aba j).mainStep C.f with
  | none => rfl
  | some z =>
    exfalso
    replace hz : (BA.protocol C).act p .main ((x p).aba j) = some z := hz
    replace hnone : (do
      let y ← (BA.protocol C).act p .main ((x p).aba j)
      Round.callCoin S r p j { x p with aba := Function.update (x p).aba j y }) = none := hnone
    rw [hz, Option.bind_eq_bind, Option.bind_some] at hnone
    unfold Round.callCoin at hnone
    dsimp only at hnone
    split at hnone
    · next k _ =>
      have hact := Option.map_eq_none_iff.mp hnone
      replace hact : (S.tsig.sSK[p.val]?).map _ = none := hact
      rw [Coin.key_of_dealer S.tsig.dealt p] at hact
      cases hact
    · cases hnone

/-- the calls of an agreement that has all its inputs wait for messages, or for the coin -/
theorem aba_stalled (hr : NoRepeats S r s)
    (hin : ∀ p, C.Honest p → ∃ v, (j, v) ∈ (x p).acs.abaIn) :
    BA.Stalled ((abaSlot S r j).net s) := by
  intro p hp
  have hst := net_some (K := abaSlot S r j) (hx p hp).call
  have hcall := BA.reached_call (aba_reached h r j) p hp
  have hkept := BA.reached_kept (aba_once h hr j) p hp
  have halive := hkept.alive
  obtain ⟨v, hv⟩ := hin p hp
  have hpc := aba_begun hq hx hp hv
  have hmain := aba_blocked (j := j) hq hx hp
  rw [hst] at hcall halive
  unfold BA.Blocked
  rw [hst]
  change ((x p).aba j).pc = .returned ∨ ((((x p).aba j).parked = true ∧
    ((x p).aba j).bvSignal = false) ∨ ∃ V, ((x p).aba j).pc = .coin V) ∧ _
  by_cases hret : ((x p).aba j).pc = .returned
  · exact .inl hret
  · right
    have hrun : ((x p).aba j).recvLoop = .running := halive.resolve_right fun hk =>
      hret (hcall.killed.mp hk)
    refine ⟨?_, delivered_of_quiet hq hp (hx p hp) h (abaSlot_sound S r j) (decide_eq_true hrun)⟩
    unfold BA.Party.mainStep at hmain
    split at hmain
    · next hb => exact .inl hb
    · cases he : ((x p).aba j).pc with
      | input => exact absurd he hpc
      | coin V => exact .inr ⟨V, rfl⟩
      | returned => exact absurd he hret
      | _ =>
        rw [he] at hmain
        cases hmain

/-- **the agreements that have all their inputs have decided** -/
theorem aba_decided (hr : NoRepeats S r s) (hsafe : BA.QuitSafe ((abaSlot S r j).net s))
    (hin : ∀ p, C.Honest p → ∃ v, (j, v) ∈ (x p).acs.abaIn) {p : Fin C.N} (hp : C.Honest p) :
    ((x p).aba j).decisions ≠ [] := by
  intro hund
  have hnet : ∀ {p}, C.Honest p → ((abaSlot S r j).net s p).st = (x p).aba j :=
    fun hp => net_some (hx _ hp).call
  have hcoin : ∀ {p}, C.Honest p → ((coinSlot S r j).net s p).st = (x p).coin j :=
    fun hp => net_some (hx _ hp).call
  have hmet : ∀ {p}, C.Honest p → Metered C.f ((x p).aba j) ((x p).coin j) :=
    fun hp => reached_metered (reach_alone h _) r _ (hx _ hp).call j
  obtain ⟨a, ha, ⟨V, hV⟩, hasked⟩ := BA.asked_of_stalled (aba_once h hr j)
    (aba_stalled h hq hx hr hin) hsafe hp ((congrArg _ (hnet hp)).trans hund)
  rw [hnet ha] at hV hasked
  have hrun := (Coin.reached_call S.tsig.lt S.tsig.dealt (coin_reached h r j) a ha).running
  rw [hcoin ha] at hrun
  have hdel := delivered_of_quiet hq ha (hx a ha) h (coinSlot_sound S r j) (decide_eq_true hrun)
  have hputs := Coin.puts_of_called S.tsig.dealt S.tsig.lt (coin_reached h r j) ha hdel
    fun i hi => by
      rw [hcoin hi]
      exact (hmet hi).called _ (hnet hi ▸ hasked i hi)
  rw [hcoin ha] at hputs
  refine coinTake_ne (hmet ha) hV ?_ (hq.inner_none ha (hx a ha) (.coinTake j))
  rw [hputs]
  exact List.cons_ne_nil _ _

end

/-! ## the common subset -/

section
variable {x : Fin C.N → S.Call} (h : Running S s) (hq : Quiet S r s)
  (hx : ∀ p, C.Honest p → TakesPart S r s p (x p)) (hc : NoCollision S r s)
  (hr : NoRepeats S r s) (hsafe : ∀ j, BA.QuitSafe ((abaSlot S r j).net s))
  (hfit : ∀ p, C.Honest p → ∀ b, (x p).toAcs = some b →
    RBC.Restored (C.N - 2 * C.f) (b.length % (C.N - 2 * C.f)))

include hq hx in
/-- an output of a broadcast has been taken -/
theorem rbcOut_taken {p : Fin C.N} (hp : C.Honest p) {j : Fin C.N} {m : Bytes}
    (hm : ((x p).rbc j).status = .returned m) : (x p).acs.rThreads j ≠ .waiting := by
  intro hw
  have hnone := hq.inner_none hp (hx p hp) (.rbcOut j)
  have hout : (x p).rbcOutputs j = some (.rbcOut j m) := by
    unfold Round.rbcOutputs
    rw [hm]
  replace hnone : (do
    let b ← (x p).rbcOutputs j
    let y ← (ACS.protocol C).act p b (x p).acs
    some { x p with acs := y }) = none := hnone
  rw [hout, Option.bind_eq_bind, Option.bind_some] at hnone
  obtain ⟨z, hz⟩ : ∃ z, (ACS.protocol C).act p (.rbcOut j m) (x p).acs = some z := ⟨_, if_pos hw⟩
  rw [hz] at hnone
  cases hnone

include hq hx in
/-- a decision has been taken -/
theorem abaOut_taken {p : Fin C.N} (hp : C.Honest p) {j : Fin C.N}
    (hd : ((x p).aba j).decisions ≠ []) : (x p).acs.aThreads j ≠ none := by
  intro hw
  have hnone := hq.inner_none hp (hx p hp) (.abaOut j)
  obtain ⟨v, hv⟩ : ∃ v, (x p).abaOutputs j = some v :=
    ⟨_, List.getLast?_eq_some_getLast hd⟩
  replace hnone : (do
    let v ← (x p).abaOutputs j
    let y ← (ACS.protocol C).act p (.abaOut j v) (x p).acs
    some { x p with acs := y }) = none := hnone
  rw [hv, Option.bind_eq_bind, Option.bind_some] at hnone
  obtain ⟨z, hz⟩ : ∃ z, (ACS.protocol C).act p (.abaOut j v) (x p).acs = some z := ⟨_, if_pos hw⟩
  rw [hz] at hnone
  cases hnone

include h hq hx hc hr hsafe hfit

/-- **nothing is due to a common subset** -/
theorem none_due : ACS.NoneDue ((acsSlot S r).net s) := by
  intro p hp j
  have hacs : ∀ {p}, C.Honest p → ((acsSlot S r).net s p).st = (x p).acs :=
    fun hp => net_some (hx _ hp).call
  constructor
  · rintro ⟨howed, hthread⟩
    obtain ⟨m, hm⟩ : RBC.Returned ((rbcSlot S r j).net s) p := by
      rcases howed with hj | ⟨q, hq', m, hdone⟩
      · exact rbc_of_honest h hq hx hc hfit hp hj
      · exact rbc_beside h hq hx hc hq' hp ⟨m, net_done h q hdone⟩
    rcases hthread with hw | hraised
    · rw [hacs hp] at hw
      rw [net_some (hx p hp).call] at hm
      exact rbcOut_taken hq hx hp hm hw
    · cases (net_raised h p hraised).symm.trans hm
  · rintro ⟨hin, hnone⟩
    rw [hacs hp] at hnone
    refine abaOut_taken hq hx hp (aba_decided h hq hx hr (hsafe j) (fun q hq' => ?_) hp) hnone
    rw [← hacs hq']
    exact hin q hq'

/-- every honest call has its tuple -/
theorem vall_of_quiet {p : Fin C.N} (hp : C.Honest p) : (x p).vall ≠ none := by
  have hacs : ((acsSlot S r).net s p).st = (x p).acs := net_some (hx p hp).call
  have hidle : ((acsSlot S r).net s p).st.mainStep C.N C.f = none := by
    have hnone := hq.inner_none hp (hx p hp) .acsMain
    replace hnone : (((x p).acs.mainStep C.N C.f).bind fun y =>
      some ({ x p with acs := y } : S.Call)) = none := hnone
    rw [hacs]
    cases hz : (x p).acs.mainStep C.N C.f with
    | none => rfl
    | some z =>
      rw [hz] at hnone
      cases hnone
  obtain ⟨values, hm⟩ := ACS.returned_of_idle
    (Reach.mono (fun _ _ hok => hok.abaOutputs) (acs_reached h hc))
    (none_due h hq hx hc hr hsafe hfit) hp hidle
  rw [hacs] at hm
  intro hv
  have hnone := hq.inner_none hp (hx p hp) .acsOut
  obtain ⟨m, hto⟩ := Option.ne_none_iff_exists'.mp (hx p hp).proposal
  unfold Round.act at hnone
  dsimp only at hnone
  rw [hto, hv, hm] at hnone
  cases hnone

omit hq hc hr hsafe hfit in
/-- the vectors of the honest parties have arrived, where a call waits for them -/
theorem vectors_arrived {vall : List (Option Bytes)} (hq : Quiet S r s)
    (hv : ∀ q, C.Honest q → (x q).vall = some vall) {p : Fin C.N} (hp : C.Honest p)
    (hwait : (x p).outcome S p = .waiting) (henough : Block.Enough C.N C.f vall)
    (hchecked : ∀ v, some v ∈ vall → Block.Checked S.tpke.packages S.pickle v) :
    C.honest ⊆ Block.senders (x p).arrivals := by
  have hlisten : (x p).listening S r p .TPKE = true :=
    decide_eq_true ⟨by rw [hv p hp]; exact Option.some_ne_none _, hwait⟩
  have hdel := delivered_of_quiet hq hp (hx p hp) h (tpkeSlot_sound S r) hlisten
  intro q hq'
  have hhon := Committee.mem_honest.mp hq'
  obtain ⟨shares, hshares⟩ := (Block.myShares_iff (S.tpke.eSK q) vall).mpr hchecked
  have hsent : (x q).myShares = some shares := by
    rw [reached_shares (reach_alone h q) r (x q) (hx q hhon).call, hv q hhon]
    exact (if_pos henough).trans hshares
  have hmem : shares ∈ (tpkeSlot S r).code.sentTo ((tpkeSlot S r).net s q).st p := by
    rw [net_some (hx q hhon).call]
    exact Option.mem_toList.mpr hsent
  exact List.mem_toFinset.mpr (List.mem_map.mpr
    ⟨(q, shares), (mem_arrivals (hx p hp).call).mpr (hdel.mem hhon hmem), rfl⟩)

end

/-- **a round comes to its end**: in a round in which nothing can happen any more, and whose
agreements nobody has left too early, all honest calls have one tuple from the common subset, and
have returned or raised -/
theorem round_ends (C : Committee) (S : Setup C) (s : State S) (h : Running S s) (r : ℤ)
    (x : Fin C.N → S.Call) (hx : ∀ p, C.Honest p → TakesPart S r s p (x p)) (hq : Quiet S r s)
    (hc : NoCollision S r s) (hr : NoRepeats S r s)
    (hsafe : ∀ j, BA.QuitSafe ((abaSlot S r j).net s))
    (hfit : ∀ p, C.Honest p → ∀ b, (x p).toAcs = some b →
      RBC.Restored (C.N - 2 * C.f) (b.length % (C.N - 2 * C.f))) :
    ∃ vall, ∀ p, C.Honest p → (x p).vall = some vall ∧ (x p).outcome S p ≠ .waiting := by
  have hall : ∀ p, C.Honest p → (x p).vall ≠ none := fun p hp =>
    vall_of_quiet h hq hx hc hr hsafe hfit hp
  have hres := C.resilient
  have hcard := C.card_honest
  obtain ⟨a, ha⟩ := Finset.card_pos.mp (show 0 < C.honest.card by omega)
  have ha := Committee.mem_honest.mp ha
  obtain ⟨vall, hvall⟩ := Option.ne_none_iff_exists'.mp (hall a ha)
  have hv : ∀ p, C.Honest p → (x p).vall = some vall := by
    intro p hp
    obtain ⟨l, hl⟩ := Option.ne_none_iff_exists'.mp (hall p hp)
    rw [hl, vall_unique h hp ha hc (hx p hp).call (hx a ha).call hl hvall]
  refine ⟨vall, fun p hp => ⟨hv p hp, fun hwait => ?_⟩⟩
  have hblock := hwait
  unfold Round.outcome at hblock
  rw [if_neg (hx p hp).proposal, hv p hp] at hblock
  obtain ⟨henough, hshares, hnone⟩ := Block.waiting_spec hblock
  have hsub := vectors_arrived h hx hq hv hp hwait henough
    ((Block.myShares_iff (S.tpke.eSK p) vall).mp hshares)
  have := Finset.card_le_card hsub
  have := Block.receive_eq_none_iff.mp hnone
  omega

/-! ## a committee of four -/

namespace four

section
variable {s : State setup}

theorem quiet (h : ∀ p ∈ parties, Idle s p) : Quiet setup 0 s where
  deliver p hp q hq y := by
    by_cases hmem : (0, y) ∈ (s q).st.sentTo setup p
    · exact Option.isNone_iff_eq_none.mp ((h p (mem_parties p hp)).1 q (mem_parties q hq) _ hmem)
    · exact deliver_none_of_not_sent hq hmem
  route p hp := (next_act_none hp).mpr
    (Option.isNone_iff_eq_none.mp (h p (mem_parties p hp)).2.1)
  take p hp i := (next_act_none hp).mpr
    (Option.isNone_iff_eq_none.mp ((h p (mem_parties p hp)).2.2.1 i (mem_instances i)))
  inner p hp a := (next_act_none hp).mpr
    (Option.isNone_iff_eq_none.mp ((h p (mem_parties p hp)).2.2.2 a (mem_actions a)))

variable (h : ∀ p ∈ parties, Through s p)
include h

theorem takesPart {p : Fin Committee.four.N} (hp : Committee.four.Honest p) :
    ∃ x, TakesPart setup 0 s p x := by
  obtain ⟨hrecv, hloop, hcall, -⟩ := h p (mem_parties p hp)
  obtain ⟨x, hx, hto⟩ := (Option.any_eq_true ..).mp hcall
  exact ⟨x, hrecv, hloop, hx, Option.isSome_iff_ne_none.mp hto⟩

theorem noRepeats : NoRepeats setup 0 s := by
  intro j p hp src hsrc m
  obtain rfl := (by decide : ∀ q, ¬ Committee.four.Honest q → q = 3) src hsrc
  have honce := ((h p (mem_parties p hp)).2.2.2 j (mem_everybody j)).2.1
  refine le_trans (List.countP_mono_left fun y _ hy => ?_) honce
  rw [eq_of_beq hy]
  rfl

theorem quitSafe (hs : Running setup s) (j : Fin Committee.four.N) :
    BA.QuitSafe ((abaSlot setup 0 j).net s) := by
  have hend : ∀ p, Committee.four.Honest p → ((abaSlot setup 0 j).net s p).st.pc = .returned ∧
      ∀ q ∈ parties, ((abaSlot setup 0 j).net s p).st.sent ⊆ ((abaSlot setup 0 j).net s q).st.sent :=
    fun p hp => ((h p (mem_parties p hp)).2.2.2 j (mem_everybody j)).imp_right And.right
  refine ⟨BA.relays_of_sent (A := ∅) (Nat.zero_le _) fun p q hp hq _ =>
    (hend p hp).2 q (mem_parties q hq), fun p q _ hq _ hund => ?_⟩
  exact absurd hund
    (BA.decided_of_returned (BA.reached_call (aba_reached hs 0 j) q hq) (hend q hq).1)

end

theorem idle : ∀ p ∈ parties, Idle last p := fun p hp => (evaluated.2.2.2 p hp).1

theorem through : ∀ p ∈ parties, Through last p := fun p hp => (evaluated.2.2.2 p hp).2

end four

theorem round_ends_four : ∃ x : Fin Committee.four.N → four.setup.Call,
    Running four.setup four.last ∧ Quiet four.setup 0 four.last ∧
    (∀ p, Committee.four.Honest p → TakesPart four.setup 0 four.last p (x p)) ∧
    ∃ vall, ∀ p, Committee.four.Honest p → (x p).vall = some vall ∧
      (x p).outcome four.setup p ≠ .waiting := by
  have : Inhabited four.setup.Call := ⟨Round.start four.setup 0 0 [] [] 0 []⟩
  choose! x hx using fun p hp => four.takesPart (p := p) four.through hp
  refine ⟨x, four.running, four.quiet four.idle, hx, ?_⟩
  refine round_ends Committee.four four.setup four.last four.running 0 x hx (four.quiet four.idle)
    (four.noCollision 0) (four.noRepeats four.through) (four.quitSafe four.through four.running)
    fun p _ b _ => .inl ?_
  exact (Nat.mod_lt _ (by decide)).trans (by decide)

end HoneyBadger
