import HoneyBadgerBFT.BinaryAgreement.Delivery

/-!
# Binary agreement: redundant messages

Every message that a call has received is in its table (`reached_entered`).  So a second copy of any
of them raises `RedundantMessageError`: the tables stay as they are, but nothing catches the
exception, and the call takes no message any more.
-/

namespace BA
open Async Trans Party

variable {C : Committee} {ok : State C → Lbl C → Prop} {s t : State C}

theorem recv_redundant {n f : ℕ} {sender : Fin n} {m : Msg} {p : Party n} (h : p.Entered sender m) :
    p.recv f sender m =
      { p with recvLoop :=
          if m.wellFormed = true then .redundantMessageError else .assertionError } := by
  cases m with
  | EST r v => exact if_pos h
  | AUX r v => exact if_pos h
  | CONF r c =>
    show p.handleConfMessages sender r c = _
    unfold handleConfMessages
    by_cases hc : c ∈ confKeys
    · rw [if_neg (not_not.mpr hc), if_pos (show sender ∈ p.confValues r c from h),
        if_pos (show Msg.wellFormed (.CONF r c) = true from decide_eq_true hc)]
    · rw [if_pos hc, if_neg (show ¬ Msg.wellFormed (.CONF r c) = true from
        fun hw => hc (of_decide_eq_true hw))]

/-- a well-formed message is in its table afterwards, new or not -/
theorem entered_of_wellFormed {n f : ℕ} {sender : Fin n} {m : Msg} {p : Party n}
    (hwf : m.wellFormed = true) : (p.recv f sender m).Entered sender m := by
  by_cases h : p.Entered sender m
  · rw [recv_redundant h]
    cases m <;> exact h
  · exact (recv_entered f h hwf).2

/-- **nothing is lost**: what has arrived is in its table -/
theorem reached_entered (h : Reached C ok s) : ∀ p, C.Honest p →
    ∀ b m, (b, m) ∈ (s p).rcvd → m.wellFormed = true → (s p).st.Entered b m := by
  refine node_invariant (fun _ nd => ∀ b m, (b, m) ∈ nd.rcvd → m.wellFormed = true →
    nd.st.Entered b m) ?_ ?_ ?_ h
  · intro p _ b m hm
    cases hm
  · intro p src m nd _ hnd _ b m' hm hwf
    rcases List.mem_cons.mp hm with e | hold
    · cases e
      exact entered_of_wellFormed hwf
    · exact (hnd b m' hold hwf).mono (recv_grows C.f src m nd.st)
  · intro p a nd x _ hnd hx b m hm hwf
    exact (hnd b m hm hwf).mono (act_grows hx)

/-- a receive loop that has ended takes no message any more -/
theorem rcvd_of_dead {p : Fin C.N} (h : Reach ((protocol C).next Msg.wellFormed) ok s t)
    (hs : (s p).st.recvLoop ≠ .running) :
    (t p).st.recvLoop ≠ .running ∧ (t p).rcvd = (s p).rcvd := by
  refine h.invariant (fun u : State C => (u p).st.recvLoop ≠ .running ∧ (u p).rcvd = (s p).rcvd)
    (fun u e w hu _ hn => ?_) ⟨hs, rfl⟩
  rcases next_at hn p with heq | ⟨src, m, -, -, hl, -, -⟩ | ⟨a, x, -, -, hx, heq⟩
  · rwa [heq]
  · exact absurd (of_decide_eq_true hl) hu.1
  · rw [heq]
    refine ⟨?_, hu.2⟩
    rcases act_recvLoop hx with e | e
    · exact e ▸ hu.1
    · exact e ▸ RecvLoop.noConfusion

/-- the tables, the relays and the messages sent are the same -/
structure Party.SameTables {n : ℕ} (p p' : Party n) : Prop where
  est : p'.estValues = p.estValues
  aux : p'.auxValues = p.auxValues
  conf : p'.confValues = p.confValues
  bin : p'.binValues = p.binValues
  estSent : p'.estSent = p.estSent
  sent : p'.sent = p.sent

/-- the state after a copy of `m` from `src` -/
def again (s : State C) (p src : Fin C.N) (m : Msg) : State C :=
  Function.update s p ⟨(s p).st.recv C.f src m, (src, m) :: (s p).rcvd⟩

/-- a Byzantine sender can make it happen -/
theorem next_again {p src : Fin C.N} {m : Msg} (hp : C.Honest p)
    (hrun : (s p).st.recvLoop = .running) (hsrc : ¬ C.Honest src) (hwf : m.wellFormed = true) :
    (protocol C).next Msg.wellFormed s (.deliver p src m) = some (again s p src m) := by
  have hpend : (protocol C).pending Msg.wellFormed s p src m = true := by
    rw [Protocol.pending, if_neg hsrc]
    exact hwf
  exact if_pos ⟨hp, decide_eq_true hrun, hpend⟩

theorem again_st (h : Reached C ok s) {p src : Fin C.N} {m : Msg} (hp : C.Honest p)
    (hm : (src, m) ∈ (s p).rcvd) (hwf : m.wellFormed = true) :
    (again s p src m p).st = { (s p).st with recvLoop := .redundantMessageError } := by
  rw [again, Function.update_self]
  show (s p).st.recv C.f src m = _
  rw [recv_redundant (reached_entered h p hp src m hm hwf), if_pos hwf]

/-- **what a second copy does**, in every reachable state and for every message that has arrived: no
table changes, but the loop does not go on, and in no continuation of the run the party takes
another message -/
theorem redundant_silences (C : Committee) (ok : State C → Lbl C → Prop) (s : State C)
    (h : Reached C ok s) (p : Fin C.N) (hp : C.Honest p) (hrun : (s p).st.recvLoop = .running)
    (src : Fin C.N) (m : Msg) (hm : (src, m) ∈ (s p).rcvd) (hwf : m.wellFormed = true) :
    (¬ C.Honest src →
      (protocol C).next Msg.wellFormed s (.deliver p src m) = some (again s p src m)) ∧
    (s p).st.SameTables (again s p src m p).st ∧
    (again s p src m p).st.recvLoop = .redundantMessageError ∧
    ∀ u, Reach ((protocol C).next Msg.wellFormed) ok (again s p src m) u →
      (u p).st.recvLoop ≠ .running ∧ (u p).rcvd = (again s p src m p).rcvd := by
  have hstate := again_st h hp hm hwf
  have hdead : (again s p src m p).st.recvLoop ≠ .running := by
    rw [hstate]
    exact RecvLoop.noConfusion
  refine ⟨fun hsrc => next_again hp hrun hsrc hwf, ?_, by rw [hstate],
    fun u hu => rcvd_of_dead hu hdead⟩
  rw [hstate]
  exact ⟨rfl, rfl, rfl, rfl, rfl, rfl⟩

/-- the first message of the run, from the Byzantine party -/
theorem exists_first : ∃ s : State four, Reached four (fun _ _ => True) s ∧
    (s 0).st.recvLoop = .running ∧ (3, .EST 0 true) ∈ (s 0).rcvd := by
  obtain ⟨s, hs, hgood⟩ := exists_exec AtMostOnce (protocol four).start (arrive [3] (.EST 0 true) 0)
    (fun s : State four => decide ((s 0).st.recvLoop = .running ∧ (3, .EST 0 true) ∈ (s 0).rcvd))
    (by decide)
  exact ⟨s, hs.mono fun _ _ _ => trivial, of_decide_eq_true hgood⟩

theorem redundant_silences_four : ∃ s : State four, Reached four (fun _ _ => True) s ∧
    (3, .EST 0 true) ∈ (s 0).rcvd ∧
    (again s 0 3 (.EST 0 true) 0).st.recvLoop = .redundantMessageError := by
  obtain ⟨s, hs, hrun, hm⟩ := exists_first
  exact ⟨s, hs, hm, (redundant_silences four _ s hs 0 (by decide) hrun 3 (.EST 0 true) hm rfl).2.2.1⟩

/-- a message that the party would take is out of its reach after the copy of another one -/
theorem copy_not_harmless : ¬ ∀ (s t : State four) (p src : Fin four.N) (m m' : Msg),
    Reached four (fun _ _ => True) s → four.Honest p → (src, m) ∈ (s p).rcvd →
    (protocol four).next Msg.wellFormed s (.deliver p src m) = some t →
    (protocol four).next Msg.wellFormed s (.deliver p src m') ≠ none →
      (protocol four).next Msg.wellFormed t (.deliver p src m') ≠ none := by
  intro hclaim
  obtain ⟨s, hs, hrun, hm⟩ := exists_first
  have hstep (m : Msg) (hwf : m.wellFormed = true) :
      (protocol four).next Msg.wellFormed s (.deliver 0 3 m) = some (again s 0 3 m) :=
    next_again (by decide) hrun (by decide) hwf
  have hfalse := hclaim s _ 0 3 (.EST 0 true) (.EST 0 false) hs (by decide) hm
    (hstep (.EST 0 true) rfl) (by rw [hstep (.EST 0 false) rfl]; exact Option.some_ne_none _)
  refine hfalse (if_neg fun hg => ?_)
  have hl := of_decide_eq_true hg.2.1
  rw [again_st hs (by decide) hm rfl] at hl
  cases hl

end BA
