import HoneyBadgerBFT.BinaryAgreement.Agreement

/-!
# Binary agreement: validity

When all inputs of honest parties are the bit `v`, nothing but `v` ever gets into a round: every
round starts with the estimate `v` at every honest party, so `bin_values` and the set returned by
`wait_for_conf_values` hold `v` alone and the coin is not used.
-/

namespace BA
open Async Trans Party

variable {C : Committee} {v : Bool} {s t : State C}

/-- every input of an honest party is `v` -/
def Unanimous (v : Bool) (_ : State C) : Lbl C → Prop
  | .act _ (.input w) => w = v
  | _ => True

instance (v : Bool) (s : State C) : DecidablePred (Unanimous v s)
  | .act _ (.input w) => inferInstanceAs (Decidable (w = v))
  | .act _ (.coin _) => isTrue trivial
  | .act _ .main => isTrue trivial
  | .deliver _ _ _ => isTrue trivial

/-! ## one call -/

/-- a round starts with the estimate at hand -/
theorem act_starting {n f : ℕ} {a : Party.Act} {p p' : Party n} (h : p.act f a = some p') {r : ℤ}
    {e : Bool} (hm : .starting r e ∈ p'.trace) :
    .starting r e ∈ p.trace ∨ p.pc = .top ∧ e = p.est := by
  rcases act_cases h with ⟨w, -, -, rfl⟩ | ⟨hpc, -, rfl⟩ | ⟨-, -, rfl⟩ | ⟨-, -, rfl⟩ | ⟨-, -, rfl⟩ |
    ⟨V, b, -, -, rfl⟩
  · exact .inl hm
  · replace hm : .starting r e ∈ Out.starting p.r p.est :: p.trace := by
      unfold startRound at hm
      dsimp only at hm
      split at hm
      · rcases List.mem_cons.mp hm with he | hm
        · cases he
        · exact hm
      · exact hm
    rcases List.mem_cons.mp hm with he | hm
    · cases he
      exact .inr ⟨hpc, rfl⟩
    · exact .inl hm
  · left
    unfold checkBin at hm
    split at hm <;> simpa [wait, goto, broadcast, emit] using hm
  · left
    unfold checkAux at hm
    split at hm
    · exact hm
    · split at hm <;> simpa [callCoin, goto, broadcast, emit] using hm
  · left
    unfold checkConf at hm
    split at hm <;> simpa [wait, callCoin, goto, emit] using hm
  · left
    unfold afterCoin at hm
    dsimp only at hm
    split at hm
    · simpa [emit] using hm
    · split at hm <;> simpa [emit] using hm

/-- the estimate after the coin's answer -/
theorem afterCoin_est {n : ℕ} (p : Party n) (V : Finset Bool) (b : Bool) :
    (p.afterCoin V b).est =
      match setNewEstimate V b p.alreadyDecided with
      | .abandonedNodeError => p.est
      | .next e _ _ => e := by
  unfold afterCoin emit
  dsimp only
  cases setNewEstimate V b p.alreadyDecided with
  | abandonedNodeError => rfl
  | next e d dec => cases dec <;> rfl

theorem setNewEstimate_singleton : ∀ (v b : Bool) (d : Option Bool),
    (match setNewEstimate {v} b d with
      | .abandonedNodeError => v
      | .next e _ _ => e) = v := by
  decide

/-- the input and the coin's answer change the estimate, and nothing else does -/
theorem act_est {n f : ℕ} {a : Party.Act} {p p' : Party n} (h : p.act f a = some p') :
    (∃ w, a = .input w ∧ p'.est = w) ∨ (p.pc ≠ .input ∧ p'.est = p.est) ∨
      ∃ V b, p.pc = .coin V ∧ p' = p.afterCoin V b := by
  rcases act_cases h with ⟨w, e, -, rfl⟩ | ⟨hpc, -, rfl⟩ | ⟨hpc, -, rfl⟩ | ⟨hpc, -, rfl⟩ |
    ⟨hpc, -, rfl⟩ | ⟨V, b, hpc, -, rfl⟩
  · exact .inl ⟨w, e, rfl⟩
  · refine .inr (.inl ⟨by rw [hpc]; decide, ?_⟩)
    unfold startRound
    dsimp only
    split <;> rfl
  · refine .inr (.inl ⟨by rw [hpc]; decide, ?_⟩)
    unfold checkBin
    split <;> rfl
  · refine .inr (.inl ⟨by rw [hpc]; decide, ?_⟩)
    unfold checkAux
    split
    · rfl
    · split <;> rfl
  · refine .inr (.inl ⟨by rw [hpc]; decide, ?_⟩)
    unfold checkConf
    split <;> rfl
  · exact .inr (.inr ⟨V, b, hpc, rfl⟩)

/-- every estimate of the call is `v`, those of past rounds too -/
structure Party.Keeps {n : ℕ} (v : Bool) (p : Party n) : Prop where
  est : p.pc ≠ .input → p.est = v
  starting : ∀ r e, .starting r e ∈ p.trace → e = v

theorem Party.Keeps.recv {n f : ℕ} {p : Party n} (h : p.Keeps v) (sender : Fin n) (m : Msg) :
    (p.recv f sender m).Keeps v := by
  have hmain := recv_sameMain f sender m p
  refine ⟨fun hpc => ?_, fun r e he => ?_⟩
  · rw [hmain.est]
    exact h.est (hmain.pc ▸ hpc)
  · rcases recv_trace f sender m p with ht | ⟨r', w, ht, -⟩ <;> rw [ht] at he
    · exact h.starting r e he
    · rcases List.mem_cons.mp he with he | he
      · cases he
      · exact h.starting r e he

/-- **step lemma**: an action of a call, if its round returned `v` alone -/
theorem Party.Keeps.act {n f : ℕ} {p p' : Party n} (h : p.Keeps v) {a : Party.Act}
    (ha : p.act f a = some p') (hin : ∀ w, a = .input w → w = v)
    (hret : ∀ V, p.pc = .coin V → V = {v}) : p'.Keeps v := by
  refine ⟨fun _ => ?_, fun r e he => ?_⟩
  · rcases act_est ha with ⟨w, hw, he⟩ | ⟨hpc, he⟩ | ⟨V, b, hpc, rfl⟩
    · rw [he, hin w hw]
    · rw [he, h.est hpc]
    · rw [afterCoin_est, hret V hpc, h.est (by rw [hpc]; exact Pc.noConfusion)]
      exact setNewEstimate_singleton v b p.alreadyDecided
  · rcases act_starting ha he with hold | ⟨hpc, rfl⟩
    · exact h.starting r e hold
    · exact h.est (by rw [hpc]; decide)

/-! ## the committee -/

theorem reached_keeps (h : Reached C (Unanimous v) s) : ∀ p, C.Honest p → (s p).st.Keeps v := by
  refine Reach.invariant_of_reach (fun s : State C => ∀ p, C.Honest p → (s p).st.Keeps v)
    (fun s e t hs hk hok hn p hp => ?_) h
    fun p _ => ⟨fun hpc => absurd rfl hpc, fun r e he => by cases he⟩
  rcases next_at hn p with heq | ⟨src, m, -, -, -, -, heq⟩ | ⟨a, x, rfl, -, hx, heq⟩ <;> rw [heq]
  · exact hk p hp
  · exact (hk p hp).recv src m
  · refine (hk p hp).act hx (fun w hw => ?_) fun V hV => ?_
    · rw [hw] at hok
      exact hok
    · exact confReturn_of_starting hs (fun q hq => (hk q hq).starting _) hp
        ((reached_call hs p hp).current.coin V hV)

theorem decision_of_unanimous (h : Reached C (Unanimous v) s) {p : Fin C.N} (hp : C.Honest p)
    {w : Bool} (hw : w ∈ (s p).st.decisions) : w = v := by
  obtain ⟨r, hret, -⟩ := (reached_call h p hp).backed _ (mem_decisions.mp hw)
  have hone := confReturn_of_starting h (fun q hq => (reached_keeps h q hq).starting r) hp hret
  exact Finset.singleton_injective hone

/-- **validity**: if all inputs of honest parties are `v`, then in every reachable state and in
every round no honest party has another bit in `bin_values`, no estimate of an honest party is
another one, and none has decided another one, whatever the coin has answered -/
theorem unanimity (C : Committee) (v : Bool) (s : State C) (h : Reached C (Unanimous v) s) :
    ∀ p, C.Honest p → (∀ r, (s p).st.binValues r ⊆ {v}) ∧
      (∀ r e, .starting r e ∈ (s p).st.trace → e = v) ∧
      ((s p).st.pc ≠ .input → (s p).st.est = v) ∧ ∀ w ∈ (s p).st.decisions, w = v := by
  intro p hp
  have hall : ∀ r q, C.Honest q → ∀ e, .starting r e ∈ (s q).st.trace → e = v :=
    fun r q hq => (reached_keeps h q hq).starting r
  refine ⟨fun r w hw => ?_, fun r => hall r p hp, (reached_keeps h p hp).est, fun w hw => ?_⟩
  · obtain ⟨q, hq, hst⟩ := bin_started h hp hw
    exact Finset.mem_singleton.mpr (hall r q hq w hst)
  · obtain ⟨r, hret, -⟩ := (reached_call h p hp).backed _ (mem_decisions.mp hw)
    exact Finset.singleton_injective (confReturn_of_starting h (hall r) hp hret)

theorem unanimity_four : ∃ s : State four, Reached four (Unanimous true) s ∧
    (∀ p, four.Honest p → (s p).st.decisions = [true]) ∧
    ∀ p, four.Honest p → ∀ r, (s p).st.binValues r ⊆ {true} := by
  obtain ⟨s, hs, hgood⟩ := exists_exec (Unanimous true) (protocol four).start decidingRun
    (fun s => decide (∀ p, four.Honest p → (s p).st.decisions = [true])) (by decide +kernel)
  exact ⟨s, hs, of_decide_eq_true hgood, fun p hp => (unanimity four true s hs p hp).1⟩

end BA
