import HoneyBadgerBFT.BinaryAgreement.Agreement
import HoneyBadgerBFT.CommonSubset.Safety
import HoneyBadgerBFT.HoneyBadger.Steps

/-!
# HoneyBadgerBFT: what the sub-protocols of a round know of each other

`Later x y`: what has been settled in the call `x` of `_run_round` is the same in `y`.  `Wired x`:
what the common subset has got from a broadcast or an agreement, this has put out, and what the
block has got from the common subset, this has returned.

* `Step.later`, `recv_later`   what is settled stays;
* `outcome_later`              so a call that has returned, has returned for ever;
* `reached_wired`              every round of an object is wired.
-/

namespace ACS
open Party

variable {n N f : ℕ} {p p' : Party n}

theorem provide_main (v : Bool) (p : Party n) (j : Fin n) : (p.provide v j).main = p.main := by
  unfold Party.provide
  split <;> rfl

theorem provideAll_main (ks : List (Fin n)) : ∀ p : Party n,
    (ks.foldl (Party.provide false) p).main = p.main := by
  induction ks with
  | nil => exact fun _ => rfl
  | cons j ks ih => exact fun p => (ih _).trans (provide_main false p j)

/-- a result is the last thing that a call does -/
theorem act_returned {a : Act n} (h : p.act N f a = some p') {values : Fin n → Option Bytes}
    (hm : p.main = .returned values) : p'.main = .returned values := by
  rw [← hm]
  cases a with
  | rbcOut j m =>
    simp only [Party.act, Party.recvRbc] at h
    split at h
    · obtain rfl := Option.some.inj h
      exact provide_main ..
    · cases h
  | rbcRaise j =>
    simp only [Party.act, Party.raiseRbc] at h
    split at h
    · obtain rfl := Option.some.inj h
      rfl
    · cases h
  | abaOut j v =>
    simp only [Party.act, Party.recvAba] at h
    split at h
    · obtain rfl := Option.some.inj h
      split
      · exact provideAll_main ..
      · rfl
    · cases h
  | main =>
    simp [Party.act, Party.mainStep, hm] at h

end ACS

namespace HoneyBadger
open Async

variable {C : Committee} {S : Setup C} {r : ℤ} {pid : Fin C.N}

namespace Round
variable {x y : S.Call}

/-! ## what is settled -/

/-- what is settled in `x` is the same in `y` -/
structure Later (x y : S.Call) : Prop where
  returned : ∀ j m, (x.rbc j).status = .returned m → (y.rbc j).status = .returned m
  raised : ∀ j, (x.rbc j).status = .raised → (y.rbc j).status = .raised
  decisions : ∀ j, (x.aba j).decisions ⊆ (y.aba j).decisions
  abaIn : x.acs.abaIn ⊆ y.acs.abaIn
  values : ∀ values, x.acs.main = .returned values → y.acs.main = .returned values
  vall : ∀ vall, x.vall = some vall → y.vall = some vall
  toAcs : y.toAcs = x.toAcs

theorem Later.refl (x : S.Call) : Later x x :=
  ⟨fun _ _ h => h, fun _ h => h, fun _ => List.Subset.refl _, List.Subset.refl _, fun _ h => h,
    fun _ h => h, rfl⟩

/-- the broadcast `j` goes on, and it was not at its end -/
theorem later_rbc {j : Fin C.N} {z : RBC.Party C.N}
    (h : (x.rbc j).status = .input ∨ (x.rbc j).status = .running) :
    Later (S := S) x { x with rbc := Function.update x.rbc j z } := by
  have hother : ∀ k, (∃ m, (x.rbc k).status = .returned m) ∨ (x.rbc k).status = .raised →
      Function.update x.rbc j z k = x.rbc k := by
    rintro k hk
    refine Function.update_of_ne ?_ _ _
    rintro rfl
    rcases hk with ⟨m, hm⟩ | hk <;> rcases h with h | h
    · cases h.symm.trans hm
    · cases h.symm.trans hm
    · cases h.symm.trans hk
    · cases h.symm.trans hk
  refine { Later.refl x with returned := fun k m hm => ?_, raised := fun k hk => ?_ }
  · dsimp only
    rwa [hother k (.inl ⟨m, hm⟩)]
  · dsimp only
    rwa [hother k (.inr hk)]

/-- the agreement `j` goes on -/
theorem later_aba {j : Fin C.N} {z : BA.Party C.N} (h : (x.aba j).decisions ⊆ z.decisions)
    (hy : y = { x with aba := Function.update x.aba j z, coin := y.coin, rcvd := y.rcvd }) :
    Later (S := S) x y := by
  rw [hy]
  refine { Later.refl x with decisions := fun k => ?_ }
  dsimp only
  by_cases hk : k = j
  · subst hk
    rwa [Function.update_self]
  · rw [Function.update_of_ne hk]
    exact List.Subset.refl _

/-- the common subset goes on -/
theorem later_acs {z : ACS.Party C.N} {a : ACS.Act C.N}
    (h : (ACS.protocol C).act pid a x.acs = some z) : Later (S := S) x { x with acs := z } := by
  have hact : x.acs.act C.N C.f a = some z := h
  have hin : x.acs.abaIn ⊆ z.abaIn := by
    have hN : 0 < C.N := Nat.lt_of_le_of_lt (Nat.zero_le _) pid.isLt
    exact (ACS.act_thread hact ⟨0, hN⟩).2.2
  exact { Later.refl x with abaIn := hin, values := fun _ hm => ACS.act_returned hact hm }

theorem aba_decisions {p : Fin C.N} {z z' : BA.Party C.N} {a : BA.Party.Act}
    (h : (BA.protocol C).act p a z = some z') : z.decisions ⊆ z'.decisions := fun _ hv =>
  BA.mem_decisions.mpr ((BA.Party.act_grows h).trace (BA.mem_decisions.mp hv))

theorem Step.later {a : Act C.N} (h : Step S r pid x a y) : Later x y := by
  cases h with
  | rbcInput hm hz => exact later_rbc (.inl (RBC.act_cases hz).1)
  | rbcOut hb hz => exact later_acs hz
  | abaInput hv hz => exact later_aba (aba_decisions hz) rfl
  | abaMain hz hpc => exact later_aba (aba_decisions hz) rfl
  | abaCoin hz hpc hc => exact later_aba (aba_decisions hz) rfl
  | coinTake hbit hc hz => exact later_aba (aba_decisions hz) rfl
  | abaOut hv hz => exact later_acs hz
  | acsMain hz => exact later_acs hz
  | acsOut hto hvall hmain =>
    refine { Later.refl x with vall := fun vall h => ?_ }
    cases hvall.symm.trans h

theorem recv_later {i : Instance C.N} (hl : x.listening S r pid i = true) (src : Fin C.N)
    (m : S.Data) : Later x (x.recv S r pid src i m) := by
  have hrcvd : ∀ l, Later x { x with rcvd := l } := fun l => { Later.refl x with }
  cases i with
  | ACS_RBC j =>
    cases m with
    | rbc m =>
      have hrun : (x.rbc j).status = .running := of_decide_eq_true hl
      exact { later_rbc (z := (RBC.protocol (S.rbc j)).recv pid src m (x.rbc j)) (.inr hrun) with }
    | _ => exact hrcvd _
  | ACS_ABA j =>
    cases m with
    | aba m =>
      refine later_aba (z := (BA.protocol C).recv pid src m (x.aba j)) (fun v hv => ?_) rfl
      exact BA.mem_decisions.mpr ((BA.Party.recv_grows C.f src m (x.aba j)).trace
        (BA.mem_decisions.mp hv))
    | _ => exact hrcvd _
  | ACS_COIN j => cases m <;> exact { Later.refl x with }
  | TPKE => cases m <;> exact hrcvd _

/-! ## the result of a call -/

theorem arrivals_congr (h : y.rcvd .TPKE = x.rcvd .TPKE) : y.arrivals = x.arrivals := by
  unfold arrivals
  rw [h]

/-- a call that has returned, has its tuple from the common subset -/
theorem outcome_returned {ds : List Bytes} : x.outcome S pid = .returned ds ↔
    ∃ vall, x.toAcs ≠ none ∧ x.vall = some vall ∧
      Block.honeybadgerBlock S.tpke.packages S.pickle C.N C.f S.tpke.ePK (S.tpke.eSK pid) x.toAcs
        vall x.arrivals = .returned ds := by
  unfold outcome
  by_cases hto : x.toAcs = none
  · rw [if_pos hto]
    refine ⟨(fun h => by cases h), ?_⟩
    rintro ⟨vall, hne, -⟩
    exact absurd hto hne
  · rw [if_neg hto]
    cases hv : x.vall with
    | none =>
      constructor
      · intro h
        dsimp only at h
        split at h <;> cases h
      · rintro ⟨vall, -, hvall, -⟩
        cases hvall
    | some vall =>
      refine ⟨fun h => ⟨vall, hto, rfl, h⟩, ?_⟩
      rintro ⟨vall', -, hvall, h⟩
      obtain rfl := Option.some.inj hvall
      exact h

theorem outcome_later (h : Later x y) (hr : y.rcvd .TPKE = x.rcvd .TPKE) {ds : List Bytes}
    (hx : x.outcome S pid = .returned ds) : y.outcome S pid = .returned ds := by
  obtain ⟨vall, hto, hvall, hret⟩ := outcome_returned.mp hx
  refine outcome_returned.mpr ⟨vall, h.toAcs ▸ hto, h.vall vall hvall, ?_⟩
  rw [h.toAcs, arrivals_congr hr]
  exact hret

theorem recv_outcome {i : Instance C.N} (hl : x.listening S r pid i = true) (src : Fin C.N)
    (m : S.Data) {ds : List Bytes} (hx : x.outcome S pid = .returned ds) :
    (x.recv S r pid src i m).outcome S pid = .returned ds := by
  refine outcome_later (recv_later hl src m) ?_ hx
  have hi : Instance.TPKE ≠ i := by
    rintro rfl
    obtain ⟨-, hwait⟩ := of_decide_eq_true hl
    cases hwait.symm.trans hx
  rw [recv_rcvd]
  exact Function.update_of_ne hi ..

/-! ## the wires -/

/-- what a sub-protocol has got from another one, this has put out -/
structure Wired (x : S.Call) : Prop where
  done : ∀ j m, x.acs.rThreads j = .done m → (x.rbc j).status = .returned m
  raised : ∀ j, x.acs.rThreads j = .raised → (x.rbc j).status = .raised
  aba : ∀ j v, x.acs.aThreads j = some v → v ∈ (x.aba j).decisions
  vall : ∀ vall, x.vall = some vall → ∃ values, x.acs.main = .returned values ∧
    vall = List.ofFn values

/-- what is settled keeps the wires, if the common subset gets nothing -/
theorem Wired.later (h : Wired x) (hl : Later x y) (hr : y.acs.rThreads = x.acs.rThreads)
    (ha : y.acs.aThreads = x.acs.aThreads) (hv : y.vall = x.vall) : Wired y where
  done j m hm := hl.returned j m (h.done j m (hr ▸ hm))
  raised j hm := hl.raised j (h.raised j (hr ▸ hm))
  aba j v hm := hl.decisions j (h.aba j v (ha ▸ hm))
  vall vall hvall := by
    obtain ⟨values, hm, rfl⟩ := h.vall vall (hv ▸ hvall)
    exact ⟨values, hl.values values hm, rfl⟩

/-- the common subset gets what is there -/
theorem Wired.act (h : Wired x) {b : ACS.Act C.N} {z : ACS.Party C.N}
    (hz : (ACS.protocol C).act pid b x.acs = some z)
    (hdone : ∀ j m, b = .rbcOut j m → (x.rbc j).status = .returned m)
    (hraise : ∀ j, b = .rbcRaise j → (x.rbc j).status = .raised)
    (haba : ∀ j v, b = .abaOut j v → v ∈ (x.aba j).decisions) :
    Wired (S := S) { x with acs := z } where
  done j m hm := by
    rcases (ACS.act_thread hz j).1 with he | ⟨m', hb, he⟩ | ⟨-, he⟩ | he
    · exact h.done j m (he ▸ hm)
    · obtain rfl := ACS.RThread.done.inj (he.symm.trans hm)
      exact hdone j m' hb
    · cases he.symm.trans hm
    · cases he.symm.trans hm
  raised j hm := by
    rcases (ACS.act_thread hz j).1 with he | ⟨m', -, he⟩ | ⟨hb, -⟩ | he
    · exact h.raised j (he ▸ hm)
    · cases he.symm.trans hm
    · exact hraise j hb
    · cases he.symm.trans hm
  aba j v hm := by
    rcases (ACS.act_thread hz j).2.1 with he | ⟨v', hb, he⟩
    · exact h.aba j v (he ▸ hm)
    · obtain rfl := Option.some.inj (he.symm.trans hm)
      exact haba j v' hb
  vall vall hvall := by
    obtain ⟨values, hm, rfl⟩ := h.vall vall hvall
    exact ⟨values, ACS.act_returned hz hm, rfl⟩

/-- an output of a broadcast -/
theorem rbcOutputs_eq {j : Fin C.N} {b : ACS.Act C.N} (h : x.rbcOutputs j = some b) :
    (∃ m, b = .rbcOut j m ∧ (x.rbc j).status = .returned m) ∨
      b = .rbcRaise j ∧ (x.rbc j).status = .raised := by
  unfold rbcOutputs at h
  split at h
  · next m hm => exact .inl ⟨m, (Option.some.inj h).symm, hm⟩
  · next hm => exact .inr ⟨(Option.some.inj h).symm, hm⟩
  · cases h

theorem abaOutputs_mem {j : Fin C.N} {v : Bool} (h : x.abaOutputs j = some v) :
    v ∈ (x.aba j).decisions := List.mem_of_getLast? h

/-- **step lemma** -/
theorem Wired.step (h : Wired x) {a : Act C.N} (hs : Step S r pid x a y) : Wired y := by
  have hl := hs.later
  cases hs with
  | @rbcOut j b z hb hz =>
    rcases rbcOutputs_eq hb with ⟨m, rfl, hm⟩ | ⟨rfl, hm⟩
    · refine h.act hz (fun j' m' e => ?_) (fun j' e => by cases e) fun j' v e => by cases e
      obtain ⟨rfl, rfl⟩ := ACS.Act.rbcOut.inj e
      exact hm
    · refine h.act hz (fun j' m' e => by cases e) (fun j' e => ?_) fun j' v e => by cases e
      obtain rfl := ACS.Act.rbcRaise.inj e
      exact hm
  | abaOut hv hz =>
    refine h.act hz (fun j' m' e => by cases e) (fun j' e => by cases e) fun j' v' e => ?_
    obtain ⟨rfl, rfl⟩ := ACS.Act.abaOut.inj e
    exact abaOutputs_mem hv
  | acsMain hz =>
    exact h.act hz (fun j' m' e => by cases e) (fun j' e => by cases e) fun j' v e => by cases e
  | acsOut hto hvall hmain =>
    refine ⟨h.done, h.raised, h.aba, fun vall hv => ?_⟩
    exact ⟨_, hmain, (Option.some.inj hv).symm⟩
  | _ => exact h.later hl rfl rfl rfl

theorem Wired.recv (h : Wired x) {i : Instance C.N} (hl : x.listening S r pid i = true)
    (src : Fin C.N) (m : S.Data) : Wired (x.recv S r pid src i m) := by
  obtain ⟨hv, -, -, hacs⟩ := Round.recv_shares r pid src i m x
  exact h.later (recv_later hl src m) (by rw [hacs]) (by rw [hacs]) hv

theorem wired_start (tx : Str) (key : Bytes) (rnd : ZMod S.tpke.p) (iv : Bytes) :
    Wired (Round.start S pid r tx key rnd iv) where
  done _ _ h := by cases h
  raised _ h := by cases h
  aba _ _ h := by cases h
  vall _ h := by cases h

end Round

/-! ## the rounds of an object -/

/-- what holds of the call of a round when it starts and is kept by it, holds of all calls -/
theorem rounds_invariant (I : ℤ → S.Call → Prop)
    (hstart : ∀ r tx key rnd iv, I r (Round.start S pid r tx key rnd iv))
    (hstep : ∀ r x a y, I r x → Round.Step S r pid x a y → I r y)
    (hrecv : ∀ r x src i m, I r x → x.listening S r pid i = true → I r (x.recv S r pid src i m))
    {nd : Node C.N S.Obj S.Msg} (h : (system S).ReachableAlone pid nd) :
    ∀ r x, nd.st.rounds r = some x → I r x := by
  refine alone_invariant (fun nd : Node C.N S.Obj S.Msg =>
    ∀ r x, nd.st.rounds r = some x → I r x) (fun _ _ h => by cases h)
    (fun src m nd hnd _ => hnd) (fun a nd u hnd hu => ?_) h
  cases Object.act_step hu with
  | outer hab hn hm => exact hnd
  | @started key rnd iv tx hb hn hm =>
    intro r x hx
    rcases setRound_rounds hx with ⟨rfl, rfl⟩ | ⟨-, hx⟩
    · exact hstart ..
    · exact hnd r x hx
  | @take r' i x src m hx hm hl =>
    intro r y hy
    rcases setRound_rounds hy with ⟨rfl, rfl⟩ | ⟨-, hy⟩
    · exact hrecv r x src i m (hnd r x hx) hl
    · exact hnd r y hy
  | @inner r' a x y hx hy =>
    intro r z hz
    rcases setRound_rounds hz with ⟨rfl, rfl⟩ | ⟨-, hz⟩
    · exact hstep r x a z (hnd r x hx) hy
    · exact hnd r z hz

/-- **every round is wired** -/
theorem reached_wired {nd : Node C.N S.Obj S.Msg} (h : (system S).ReachableAlone pid nd) :
    ∀ r x, nd.st.rounds r = some x → x.Wired :=
  rounds_invariant (fun _ x => x.Wired) (fun _ => Round.wired_start)
    (fun _ _ _ _ hx hs => hx.step hs) (fun _ _ src _ m hx hl => hx.recv hl src m) h

end HoneyBadger
