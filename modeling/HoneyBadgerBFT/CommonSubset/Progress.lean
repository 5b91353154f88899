import HoneyBadgerBFT.CommonSubset.Safety

/-!
# Common subset: no deadlock

`NoneDue s`: whatever the broadcasts and the agreements owe the honest parties has arrived.  Then
some honest party has seen `N-f` ones (`exists_ones`): otherwise nobody has given a 0 to an
agreement, so those of the honest leaders have all inputs, and decide 1.  The ones of that party
have honest outputs of their broadcasts behind them, so every honest party gives 1 to these
agreements, sees `N-f` ones, and gives 0 to the rest (`all_joined`).
-/

namespace ACS
open Async Trans Party

variable {C : Committee} {s t : State C}

/-- the broadcast `j` owes its output to `p`: its leader is honest or some honest party has it -/
def RbcDue (s : State C) (p j : Fin C.N) : Prop :=
  (C.Honest j ∨ ∃ q, C.Honest q ∧ ∃ m, (s q).st.rThreads j = .done m) ∧
    ((s p).st.rThreads j = .waiting ∨ (s p).st.rThreads j = .raised)

/-- the agreement `j` owes its output to `p`: all honest parties have given it their inputs -/
def AbaDue (s : State C) (p j : Fin C.N) : Prop :=
  (∀ q, C.Honest q → ∃ v, (j, v) ∈ (s q).st.abaIn) ∧ (s p).st.aThreads j = none

def NoneDue (s : State C) : Prop := ∀ p, C.Honest p → ∀ j, ¬ RbcDue s p j ∧ ¬ AbaDue s p j

/-- the main greenlet runs until it blocks, for `k` turns at most -/
def Party.runMain {n : ℕ} (N f : ℕ) : ℕ → Party n → Party n
  | 0, p => p
  | k + 1, p =>
    match p.mainStep N f with
    | none => p
    | some p' => runMain N f k p'

/-- the states of the runs in which the agreements answer as assumed -/
abbrev Answered (C : Committee) (s : State C) : Prop :=
  (protocol C).Reachable (fun _ => true) AbaOutputs s

/-! ## inputs that have been given -/

/-- every output that calls for an input has been followed by it -/
structure Fed {n : ℕ} (N f : ℕ) (p : Party n) : Prop where
  one : ∀ j m, p.rThreads j = .done m → p.abaInputted j = true
  zero : N - f ≤ p.sumValues → ∀ j, p.abaInputted j = true

section
variable {n N f : ℕ} {p : Party n}

theorem provide_inputted (v : Bool) (p : Party n) (j : Fin n) :
    (p.provide v j).abaInputted j = true := by
  unfold provide
  split
  · assumption
  · exact Function.update_self ..

theorem inputted_provide (v : Bool) (j : Fin n) {k : Fin n} (h : p.abaInputted k = true) :
    (p.provide v j).abaInputted k = true := by
  unfold provide
  split
  · exact h
  · by_cases hk : k = j
    · subst hk
      exact Function.update_self ..
    · exact (Function.update_of_ne hk _ _).trans h

theorem provideAll_inputted (ks : List (Fin n)) : ∀ (p : Party n) (k : Fin n),
    k ∈ ks ∨ p.abaInputted k = true →
      (ks.foldl (Party.provide false) p).abaInputted k = true := by
  induction ks with
  | nil => exact fun _ _ h => h.resolve_left (List.not_mem_nil)
  | cons j ks ih =>
    intro p k h
    refine ih _ k ?_
    rcases h with h | h
    · rcases List.mem_cons.mp h with rfl | h
      · exact .inr (provide_inputted false p k)
      · exact .inl h
    · exact .inr (inputted_provide false j h)

theorem Fed.recvRbc (h : Fed N f p) {j : Fin n} {m : Bytes} {p' : Party n}
    (hp : p.recvRbc j m = some p') : Fed N f p' := by
  unfold Party.recvRbc at hp
  split at hp
  · obtain rfl := Option.some.inj hp
    refine ⟨fun k m' hk => ?_, fun hsum k => ?_⟩
    · rw [(provide_same true _ j).1] at hk
      by_cases hkj : k = j
      · subst hkj
        exact provide_inputted ..
      · exact inputted_provide true j (h.one k m' ((Function.update_of_ne hkj _ _).symm.trans hk))
    · rw [provide_sumValues] at hsum
      exact inputted_provide true j (h.zero hsum k)
  · cases hp

theorem Fed.raiseRbc (h : Fed N f p) {j : Fin n} {p' : Party n} (hp : p.raiseRbc j = some p') :
    Fed N f p' := by
  unfold Party.raiseRbc at hp
  split at hp
  · obtain rfl := Option.some.inj hp
    refine ⟨fun k m hk => h.one k m ?_, h.zero⟩
    by_cases hkj : k = j
    · subst hkj
      cases (Function.update_self ..).symm.trans hk
    · exact (Function.update_of_ne hkj _ _).symm.trans hk
  · cases hp

theorem Fed.recvAba (h : Fed N f p) {j : Fin n} {v : Bool} {p' : Party n}
    (hp : p.recvAba N f j v = some p') : Fed N f p' := by
  unfold Party.recvAba at hp
  split at hp
  · obtain rfl := Option.some.inj hp
    split
    · have hall := fun k => provideAll_inputted (List.finRange n) { p with
        abaValues := Function.update p.abaValues j v
        aThreads := Function.update p.aThreads j (some v) } k (.inl (List.mem_finRange k))
      exact ⟨fun k _ _ => hall k, fun _ => hall⟩
    · next hsum => exact ⟨h.one, fun hle => absurd hle hsum⟩
  · cases hp

theorem Fed.mainStep (h : Fed N f p) {p' : Party n} (hp : p.mainStep N f = some p') :
    Fed N f p' := by
  unfold Party.mainStep at hp
  split at hp
  · split at hp
    · obtain rfl := Option.some.inj hp
      exact ⟨h.one, h.zero⟩
    · cases hp
  · split at hp
    · split at hp
      · split at hp
        · cases hp
        · obtain rfl := Option.some.inj hp
          exact ⟨h.one, h.zero⟩
      · obtain rfl := Option.some.inj hp
        refine ⟨fun k m hk => ?_, h.zero⟩
        rcases drop_thread_cases p _ k with e | ⟨-, e⟩
        · exact h.one k m (e.symm.trans hk)
        · cases e.symm.trans hk
    · obtain rfl := Option.some.inj hp
      exact ⟨h.one, h.zero⟩
  · cases hp

/-- **step lemma** -/
theorem Fed.act (h : Fed N f p) {a : Act n} {p' : Party n} (hp : p.act N f a = some p') :
    Fed N f p' := by
  cases a with
  | rbcOut j m => exact h.recvRbc hp
  | rbcRaise j => exact h.raiseRbc hp
  | abaOut j v => exact h.recvAba hp
  | main => exact h.mainStep hp

end

theorem reached_fed (h : Answered C s) : ∀ p, C.Honest p → Fed C.N C.f (s p).st := by
  refine node_invariant (fun _ nd => Fed C.N C.f nd.st) (fun p _ => ⟨?_, ?_⟩) ?_ ?_ h
  · intro j m hj
    cases hj
  · intro hsum
    have hzero : (Party.init : Party C.N).sumValues = 0 := by
      simp [sumValues, Party.init]
    have := C.resilient
    have hsum : C.N - C.f ≤ (Party.init : Party C.N).sumValues := hsum
    omega
  · exact fun _ _ m => m.elim
  · exact fun p a nd x _ hnd hx => hnd.act hx

/-! ## nothing is due -/

section
variable (h : Answered C s) (hdue : NoneDue s) {p : Fin C.N} (hp : C.Honest p) {j : Fin C.N}
include h hdue hp

/-- an output that is owed has arrived, unless the agreement has decided 0 meanwhile -/
theorem done_of_owed (hj : C.Honest j ∨ ∃ q, C.Honest q ∧ ∃ m, (s q).st.rThreads j = .done m) :
    (∃ m, (s p).st.rThreads j = .done m) ∨ (s p).st.aThreads j = some false := by
  cases hr : (s p).st.rThreads j with
  | waiting => exact absurd ⟨hj, .inl hr⟩ (hdue p hp j).1
  | raised => exact absurd ⟨hj, .inr hr⟩ (hdue p hp j).1
  | done m => exact .inl ⟨m, rfl⟩
  | killed => exact .inr ((reached_call h p hp).killed j hr)

theorem decided_of_inputs (hin : ∀ q, C.Honest q → (s q).st.abaInputted j = true) :
    ∃ v, (s p).st.aThreads j = some v := by
  refine Option.ne_none_iff_exists'.mp fun hnone => (hdue p hp j).2 ⟨fun q hq => ?_, hnone⟩
  exact ((reached_call h q hq).inputted j).mp (hin q hq)

/-- the agreements that one honest party has seen decide 1 have decided 1 everywhere, and their
broadcasts have their outputs everywhere -/
theorem one_of_one {q : Fin C.N} (hq : C.Honest q) (hj : (s q).st.abaValues j = true) :
    (∃ m, (s p).st.rThreads j = .done m) ∧ (s p).st.aThreads j = some true := by
  have hans := reached_answers h
  have htrue := (reached_call h q hq).aba_true hj
  obtain ⟨q', hq', hin⟩ := hans.input q j true hq htrue
  have hdone : ∀ r, C.Honest r → ∃ m, (s r).st.rThreads j = .done m := by
    intro r hr
    refine (done_of_owed h hdue hr (.inr ⟨q', hq', (reached_call h q' hq').one j hin⟩)).resolve_right ?_
    intro hfalse
    cases hans.aba q r j true false hq hr htrue hfalse
  obtain ⟨v, hv⟩ := decided_of_inputs h hdue hp fun r hr => by
    obtain ⟨m, hm⟩ := hdone r hr
    exact (reached_fed h r hr).one j m hm
  obtain rfl := hans.aba q p j true v hq hp htrue hv
  exact ⟨hdone p hp, hv⟩

end

section
variable (h : Answered C s) (hdue : NoneDue s)
include h hdue

/-- **some honest party has seen `N-f` ones** -/
theorem exists_ones : ∃ q, C.Honest q ∧ C.N - C.f ≤ (s q).st.sumValues := by
  by_contra hno
  push Not at hno
  -- then no honest party has given a 0, and no agreement has decided one
  have hans := reached_answers h
  have hzero : ∀ q, C.Honest q → ∀ j, (s q).st.aThreads j ≠ some false := by
    intro q hq j hj
    obtain ⟨r, hr, hin⟩ := hans.input q j false hq hj
    exact absurd ((reached_call h r hr).zero j hin) (not_le.mpr (hno r hr))
  obtain ⟨p, hp⟩ : ∃ p, C.Honest p := by
    have hcard := C.card_honest
    have hres := C.resilient
    obtain ⟨p, hp⟩ := Finset.card_pos.mp (show 0 < C.honest.card by omega)
    exact ⟨p, Committee.mem_honest.mp hp⟩
  refine absurd (C.card_honest.trans (Finset.card_le_card fun j hj => ?_)) (not_le.mpr (hno p hp))
  have hleader := Committee.mem_honest.mp hj
  obtain ⟨v, hv⟩ := decided_of_inputs h hdue hp fun q hq => by
    obtain ⟨m, hm⟩ := (done_of_owed h hdue hq (.inl hleader)).resolve_right (hzero q hq j)
    exact (reached_fed h q hq).one j m hm
  refine Finset.mem_filter.mpr ⟨Finset.mem_univ j, ?_⟩
  rw [(reached_call h p hp).values j, hv]
  exact eq_true_of_ne_false fun hv' => hzero p hp j (hv' ▸ hv)

/-- **every agreement has decided** at every honest party -/
theorem all_joined {p : Fin C.N} (hp : C.Honest p) (j : Fin C.N) : (s p).st.aThreads j ≠ none := by
  obtain ⟨q, hq, hones⟩ := exists_ones h hdue
  obtain ⟨v, hv⟩ := decided_of_inputs (j := j) h hdue hp fun r hr => by
    refine (reached_fed h r hr).zero (hones.trans (sumValues_le fun k hk => ?_)) j
    rw [(reached_call h r hr).values k, (one_of_one h hdue hr hq hk).2]
    rfl
  rw [hv]
  exact Option.some_ne_none v

/-- a main greenlet that has nothing to run has returned -/
theorem returned_of_idle {p : Fin C.N} (hp : C.Honest p)
    (hidle : (s p).st.mainStep C.N C.f = none) : ∃ values, (s p).st.main = .returned values := by
  have hcall := reached_call h p hp
  have hmain := hcall.main
  have hone : ∀ j, (s p).st.abaValues j = true → ∃ m, (s p).st.rThreads j = .done m :=
    fun j hj => (one_of_one h hdue hp hp hj).1
  unfold Party.mainStep at hidle
  cases hm : (s p).st.main with
  | joining =>
    simp only [hm] at hidle
    rw [if_pos (all_joined h hdue hp)] at hidle
    cases hidle
  | scanning i =>
    simp only [hm] at hidle
    split at hidle
    · split at hidle
      · next hv =>
        obtain ⟨m, hr⟩ := hone _ hv
        rw [if_neg (by rw [hr]; exact RThread.noConfusion)] at hidle
        cases hidle
      · cases hidle
    · cases hidle
  | returned values => exact ⟨values, rfl⟩
  | fewCommitted =>
    rw [hm] at hmain
    obtain ⟨q, hq, hones⟩ := exists_ones h hdue
    have hle : (s q).st.sumValues ≤ (s p).st.sumValues := sumValues_le fun k hk => by
      rw [hcall.values k, (one_of_one h hdue hp hq hk).2]
      rfl
    exact absurd (hones.trans hle) (not_le.mpr hmain)
  | noValue =>
    rw [hm] at hmain
    obtain ⟨j, hj, hr⟩ := hmain
    obtain ⟨m, hr'⟩ := hone j hj
    cases hr.symm.trans hr'

end

/-! ## the main greenlet runs to its end -/

/-- the turns that are left -/
def Party.turns {n : ℕ} (p : Party n) : ℕ :=
  match p.main with
  | .joining => n + 2
  | .scanning i => n - i + 1
  | _ => 0

theorem turns_joining {n : ℕ} {p : Party n} (h : p.main = .joining) : p.turns = n + 2 := by
  rw [Party.turns, h]

theorem turns_scanning {n i : ℕ} {p : Party n} (h : p.main = .scanning i) :
    p.turns = n - i + 1 := by
  rw [Party.turns, h]

theorem mainStep_turns {n N f : ℕ} {p p' : Party n} (h : p.mainStep N f = some p') :
    p'.turns < p.turns := by
  unfold mainStep at h
  split at h
  · next hm =>
    rw [turns_joining hm, turns]
    split at h
    · obtain rfl := Option.some.inj h
      dsimp only
      split
      · next e =>
        split at e <;> cases e
      · next i e =>
        split at e <;> cases e
        omega
      · omega
    · cases h
  · next i hm =>
    rw [turns_scanning hm, turns]
    split at h
    · next hi =>
      split at h
      · split at h
        · cases h
        · obtain rfl := Option.some.inj h
          dsimp only
          split
          · next e => split at e <;> cases e
          · next k e =>
            split at e <;> cases e
            omega
          · omega
      · obtain rfl := Option.some.inj h
        dsimp only
        omega
    · obtain rfl := Option.some.inj h
      dsimp only
      omega
  · cases h

/-- a turn of a main greenlet makes nothing due -/
theorem NoneDue.main (hdue : NoneDue s)
    (hn : ∀ q k, ((t q).st.rThreads k = (s q).st.rThreads k ∨ (t q).st.rThreads k = .killed) ∧
      (t q).st.aThreads k = (s q).st.aThreads k ∧ (t q).st.abaIn = (s q).st.abaIn) :
    NoneDue t := by
  intro p hp j
  refine ⟨fun hrbc => (hdue p hp j).1 ⟨hrbc.1.imp_right ?_, ?_⟩, fun haba => (hdue p hp j).2 ⟨?_, ?_⟩⟩
  · rintro ⟨q, hq, m, hm⟩
    rcases (hn q j).1 with e | e
    · exact ⟨q, hq, m, e.symm.trans hm⟩
    · cases e.symm.trans hm
  · rcases (hn p j).1 with e | e
    · rw [← e]
      exact hrbc.2
    · rcases hrbc.2 with h | h <;> cases e.symm.trans h
  · intro q hq
    rw [← (hn q j).2.2]
    exact haba.1 q hq
  · exact (hn p j).2.1.symm.trans haba.2

theorem runMain_returned {p : Fin C.N} (hp : C.Honest p) (k : ℕ) : ∀ {s : State C}, Answered C s →
    NoneDue s → (s p).st.turns ≤ k →
      ∃ values, ((s p).st.runMain C.N C.f k).main = .returned values := by
  induction k with
  | zero =>
    intro s h hdue hk
    refine returned_of_idle h hdue hp ?_
    cases hx : (s p).st.mainStep C.N C.f with
    | none => rfl
    | some x => exact absurd (mainStep_turns hx) (by omega)
  | succ k ih =>
    intro s h hdue hk
    unfold runMain
    cases hx : (s p).st.mainStep C.N C.f with
    | none => exact returned_of_idle h hdue hp hx
    | some x =>
      have hn : (protocol C).next (fun _ => true) s (.act p .main) =
          some (Function.update s p ⟨x, (s p).rcvd⟩) := by
        show (if C.Honest p then _ else none) = _
        rw [if_pos hp]
        show ((s p).st.mainStep C.N C.f).map _ = _
        rw [hx]
        rfl
      have hself : (Function.update s p ⟨x, (s p).rcvd⟩ p : Async.Node ..).st = x := by
        rw [Function.update_self]
      have := ih (h.tail ⟨.act p .main, trivial, hn⟩) (hdue.main fun q k => ?_) (by
        rw [hself]
        have := mainStep_turns hx
        omega)
      · rwa [hself] at this
      · by_cases hq : q = p
        · subst hq
          rw [hself]
          exact mainStep_thread hx k
        · rw [Function.update_of_ne hq]
          exact ⟨.inl rfl, rfl, rfl⟩

/-- **no deadlock**: when the broadcasts and the agreements owe nothing, every honest call returns by
turns of its main greenlet alone, and has returned if that has nothing to run; and whatever runs, it
gives each agreement at most one input, 1 after the output of the broadcast and 0 after `N-f` ones -/
theorem no_deadlock (C : Committee) (s : State C) (h : Answered C s) :
    (NoneDue s → ∀ p, C.Honest p →
      (∃ values, ((s p).st.runMain C.N C.f (C.N + 2)).main = .returned values) ∧
      ((s p).st.mainStep C.N C.f = none → ∃ values, (s p).st.main = .returned values)) ∧
    ∀ p, C.Honest p → ((s p).st.abaIn.map Prod.fst).Nodup ∧
      (∀ j, (j, true) ∈ (s p).st.abaIn → ∃ m, (s p).st.rThreads j = .done m) ∧
      ∀ j, (j, false) ∈ (s p).st.abaIn →
        C.N - C.f ≤ (Finset.univ.filter fun k => (s p).st.aThreads k = some true).card := by
  refine ⟨fun hdue p hp => ⟨?_, returned_of_idle h hdue hp⟩, fun p hp => ?_⟩
  · refine runMain_returned hp _ h hdue ?_
    unfold turns
    split <;> omega
  · have hcall := reached_call h p hp
    refine ⟨hcall.once, hcall.one, fun j hj => (hcall.zero j hj).trans ?_⟩
    refine Finset.card_le_card fun k hk => ?_
    exact Finset.mem_filter.mpr
      ⟨Finset.mem_univ k, hcall.aba_true (Finset.mem_filter.mp hk).2⟩

theorem no_deadlock_four : ∃ s : State four, Answered four s ∧ NoneDue s ∧
    ∀ p, four.Honest p → (∃ values, ((s p).st.runMain 4 1 6).main = .returned values) ∧
      ((s p).st.abaIn.map Prod.fst).Nodup := by
  have hexec : (exec ((protocol four).next fun _ => true) (fun s e => decide (SubProtocols four s e))
      (protocol four).start fourRun).any (fun s => decide (∀ p, four.Honest p → ∀ j,
        (s p).st.aThreads j ≠ none ∧ (s p).st.rThreads j ≠ .waiting ∧
          (s p).st.rThreads j ≠ .raised)) = true := by
    decide +kernel
  obtain ⟨s, hs, hgood⟩ := exists_reach_of_exec
    (fun _ _ h => SubProtocols.abaOutputs (of_decide_eq_true h)) hexec
  have hended := of_decide_eq_true hgood
  have hdue : NoneDue s := fun p hp j =>
    ⟨fun hrbc => hrbc.2.elim (hended p hp j).2.1 (hended p hp j).2.2,
      fun haba => (hended p hp j).1 haba.2⟩
  obtain ⟨hret, hin⟩ := no_deadlock four s hs
  exact ⟨s, hs, hdue, fun p hp => ⟨(hret hdue p hp).1, (hin p hp).1⟩⟩

end ACS
