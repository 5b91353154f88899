import HoneyBadgerBFT.BinaryAgreement.Progress

/-!
# Binary agreement: who asks the coin

The answers of the coin come from outside.  In a state in which the honest calls have nothing to do
but to wait for it, an undecided party means that some call is in front of the coin of a round for
which all honest calls have asked it (`asked_of_stalled`).

* `mainStep_spec`, `afterCoin_spec`   where a step takes the main loop;
* `reached_asks`                      behind a return of `wait_for_conf_values` there is a call of the
                                      coin.
-/

namespace BA
open Async Trans Party

/-! ## the main loop on its way -/

namespace Party
variable {n f : ℕ} {p p' : Party n}

/-- a step of the main loop stays in its round, and calls the coin where it comes to it -/
structure Moves (p p' : Party n) : Prop where
  round : p'.r = p.r
  live : p'.pc ≠ .returned
  asked : ∀ r, .coin r ∈ p'.trace → .coin r ∈ p.trace ∨ r = p'.r ∧ ∃ V, p'.pc = .coin V
  asks : ∀ V, p'.pc = .coin V → .coin p'.r ∈ p'.trace

theorem Moves.wait (hpc : p.pc = .bin ∨ p.pc = .aux ∨ p.pc = .conf) : p.Moves p.wait := by
  refine ⟨rfl, fun h => ?_, fun _ hr => .inl hr, fun V h => ?_⟩ <;>
    rcases hpc with e | e | e <;> cases e.symm.trans h

/-- a broadcast, and on to a test that is not the coin -/
theorem Moves.sending {m : Msg} (ht : p'.trace = .broadcast m :: p.trace)
    (hr : p'.r = p.r) (hpc : p'.pc = .aux ∨ p'.pc = .conf) : p.Moves p' := by
  refine ⟨hr, fun h => ?_, fun r hm => .inl ?_, fun V h => ?_⟩
  · rcases hpc with e | e <;> cases e.symm.trans h
  · rw [ht] at hm
    exact (List.mem_cons.mp hm).resolve_left Out.noConfusion
  · rcases hpc with e | e <;> cases e.symm.trans h

theorem Moves.asking {V : Finset Bool} {l : List Out} (hl : ∀ r, .coin r ∉ l)
    (ht : p'.trace = .coin p.r :: (l ++ p.trace)) (hr : p'.r = p.r) (hpc : p'.pc = .coin V) :
    p.Moves p' := by
  refine ⟨hr, fun h => (by cases hpc.symm.trans h), fun r hm => ?_, fun W _ => ?_⟩
  · rw [ht] at hm
    rcases List.mem_cons.mp hm with he | hm
    · exact .inr ⟨(Out.coin.inj he).trans hr.symm, V, hpc⟩
    · exact .inl ((List.mem_append.mp hm).resolve_left (hl r))
  · rw [ht, hr]
    exact List.mem_cons_self

/-- **one turn of the main loop** -/
theorem mainStep_spec (h : p.mainStep f = some p') :
    (p.pc = .top ∨ p.pc = .bin ∨ p.pc = .aux ∨ p.pc = .conf) ∧ p.Moves p' := by
  have hact : p.act f .main = some p' := h
  rcases act_cases hact with ⟨v, ha, -⟩ | ⟨hpc, -, rfl⟩ | ⟨hpc, -, rfl⟩ | ⟨hpc, -, rfl⟩ |
    ⟨hpc, -, rfl⟩ | ⟨V, b, -, ha, -⟩
  · cases ha
  · refine ⟨.inl hpc, ?_⟩
    unfold startRound
    dsimp only
    split
    · refine ⟨rfl, Pc.noConfusion, fun r hm => .inl ?_, fun V h => by cases h⟩
      simpa [goto, broadcast, emit] using hm
    · refine ⟨rfl, Pc.noConfusion, fun r hm => .inl ?_, fun V h => by cases h⟩
      simpa [goto, emit] using hm
  · refine ⟨.inr (.inl hpc), ?_⟩
    unfold checkBin
    split
    · exact .wait (.inl hpc)
    · exact .sending rfl rfl (.inl rfl)
  · refine ⟨.inr (.inr (.inl hpc)), ?_⟩
    unfold checkAux
    split
    · exact .wait (.inr (.inl hpc))
    · next values _ =>
      split
      · exact .sending rfl rfl (.inr rfl)
      · exact Moves.asking (fun _ => List.not_mem_nil) rfl rfl rfl
  · refine ⟨.inr (.inr (.inr hpc)), ?_⟩
    unfold checkConf
    split
    · exact .wait (.inr (.inr hpc))
    · next values _ =>
      have hl : ∀ r, .coin r ∉ [Out.confReturn p.r values] :=
        fun _ h => Out.noConfusion (List.mem_singleton.mp h)
      exact Moves.asking hl rfl rfl rfl
  · cases ha

/-- **the answer of the coin**: the next round, or the end -/
theorem afterCoin_spec (V : Finset Bool) (b : Bool) (p : Party n) :
    ((p.afterCoin V b).r = p.r + 1 ∧ (p.afterCoin V b).pc = .top ∨
      (p.afterCoin V b).r = p.r ∧ (p.afterCoin V b).pc = .returned) ∧
    ∀ r, .coin r ∈ (p.afterCoin V b).trace → .coin r ∈ p.trace := by
  unfold afterCoin
  dsimp only
  split
  · exact ⟨.inr ⟨rfl, rfl⟩, fun r hm => by simpa [emit] using hm⟩
  · split <;> exact ⟨.inl ⟨rfl, rfl⟩, fun r hm => by simpa [emit] using hm⟩

end Party

/-! ## calls of the coin -/

variable {C : Committee} {s : State C}

/-- every return of `wait_for_conf_values` has been followed by a call of the coin -/
theorem reached_asks {p : Fin C.N} {nd : Node C.N (Party C.N) Msg}
    (h : (protocol C).ReachableAlone p nd) (r : ℤ) (V : Finset Bool)
    (hm : .confReturn r V ∈ nd.st.trace) : .coin r ∈ nd.st.trace := by
  refine alone_invariant (fun nd : Node C.N (Party C.N) Msg =>
    .confReturn r V ∈ nd.st.trace → .coin r ∈ nd.st.trace) (fun hm => by cases hm)
    (fun src m nd ih _ hm => ?_) (fun a nd x ih hx hm => ?_) h hm
  · refine (recv_grows C.f src m nd.st).trace (ih ?_)
    rcases recv_trace C.f src m nd.st with ht | ⟨r', v, ht, -⟩ <;>
      replace hm : _ ∈ (nd.st.recv C.f src m).trace := hm <;> rw [ht] at hm
    · exact hm
    · exact (List.mem_cons.mp hm).resolve_left Out.noConfusion
  · rcases act_confReturn hx hm with hold | ⟨rfl, hpc, rfl, hexit⟩
    · exact (act_grows hx).trace (ih hold)
    · replace hx : nd.st.act C.f .main = some x := hx
      rcases act_cases hx with ⟨v, ha, -⟩ | ⟨hpc', -⟩ | ⟨hpc', -⟩ | ⟨hpc', -⟩ | ⟨-, -, rfl⟩ |
        ⟨W, b, -, ha, -⟩
      · cases ha
      · cases hpc.symm.trans hpc'
      · cases hpc.symm.trans hpc'
      · cases hpc.symm.trans hpc'
      · simp only [checkConf, hexit]
        exact List.mem_cons_self
      · cases ha

/-- **everybody has asked**: if the honest calls are all in a wait, and some party that none of the
quitters left behind is undecided, a call is in front of the coin of a round for which all honest
calls have asked it -/
theorem asked_of_stalled (h : Reached C AtMostOnce s) (hset : Stalled s) (hsafe : QuitSafe s)
    {q : Fin C.N} (hq : C.Honest q) (hund : (s q).st.decisions = []) :
    ∃ a, C.Honest a ∧ (∃ V, (s a).st.pc = .coin V) ∧
      ∀ p, C.Honest p → .coin (s a).st.r ∈ (s p).st.trace := by
  have hlive : (s q).st.pc ≠ .returned :=
    fun hpc => decided_of_returned (reached_call h q hq) hpc hund
  obtain ⟨a, ha, hal, hmin⟩ := exists_earliest hq hlive
  have hround : ∀ p, C.Honest p → (s a).st.r ≤ (s p).st.r := by
    intro p hp
    by_cases hpc : (s p).st.pc = .returned
    · exact (hmin q hq hlive).trans (hsafe.ahead p q hp hq hpc hund)
    · exact hmin p hp hpc
  have hB := abreast_honest h hsafe.relays ha hal hround
  refine ⟨a, ha, hB.at_coin h hset (Committee.mem_honest.mpr ha) hal rfl, fun p hp => ?_⟩
  have hpast := past_return h hset hB (Committee.mem_honest.mpr hp)
  obtain ⟨o, ho, hm⟩ := (reached_call h p hp).ordered.entry (by decide) hpast
  unfold Out.mark at hm
  split at hm <;> cases hm
  exact reached_asks (reach_alone h p) _ _ ho

end BA
