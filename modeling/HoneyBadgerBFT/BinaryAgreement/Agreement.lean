import HoneyBadgerBFT.BinaryAgreement.Rounds

/-!
# Binary agreement: agreement

With a common coin, a bit `v` that some honest party returned alone from `wait_for_conf_values` in a
round whose coin is `v` is the estimate of every honest party in every later round
(`starting_of_locked`).  Every decision locks its bit in this way, so all decisions agree.
-/

namespace BA
open Async Trans Party

variable {C : Committee} {coin : ℤ → Bool} {s t : State C}

/-- the answers of a common coin -/
theorem received_coin (h : Reached C (CommonCoin coin) s) :
    ∀ p, C.Honest p → ∀ r b, .received r b ∈ (s p).st.trace → b = coin r := by
  refine Reach.invariant
    (fun s : State C => ∀ p, C.Honest p → ∀ r b, .received r b ∈ (s p).st.trace → b = coin r)
    ?_ h fun p _ r b hm => by cases hm
  intro s e t hs hok hn p hp r b hm
  rcases next_at hn p with heq | ⟨src, m, -, -, -, -, heq⟩ | ⟨a, x, rfl, -, hx, heq⟩ <;>
    rw [heq] at hm
  · exact hs p hp r b hm
  · refine hs p hp r b ?_
    rcases recv_trace C.f src m (s p).st with ht | ⟨r', v, ht, -⟩
    · exact ht ▸ hm
    · replace hm : _ ∈ (Party.recv C.f src m (s p).st).trace := hm
      rw [ht] at hm
      simpa using hm
  · rcases act_received hx hm with hm | ⟨rfl, rfl⟩
    · exact hs p hp r b hm
    · exact hok

/-- some honest party returned `{v}` from `wait_for_conf_values` in the round `r`, whose coin is
`v` -/
def Locked (coin : ℤ → Bool) (s : State C) (r : ℤ) (v : Bool) : Prop :=
  coin r = v ∧ ∃ p, C.Honest p ∧ .confReturn r {v} ∈ (s p).st.trace

section
variable (h : Reached C (CommonCoin coin) s) {r : ℤ} {v : Bool} (hl : Locked coin s r v)
include h hl

theorem Locked.nonneg : 0 ≤ r := by
  obtain ⟨-, p, hp, hr⟩ := hl
  exact ((reached_call h p hp).ordered.past hr rfl).1

theorem starting_succ {q : Fin C.N} (hq : C.Honest q) {e : Bool}
    (hst : .starting (r + 1) e ∈ (s q).st.trace) : e = v := by
  have hnn := hl.nonneg h
  obtain ⟨hc, p, hp, hr⟩ := hl
  obtain ⟨hfrom, -⟩ := (reached_call h q hq).backed _ hst
  rcases hfrom with h0 | ⟨V, b, h1, h2, h3⟩
  · omega
  · have er : r + 1 - 1 = r := by omega
    rw [er] at h1 h2
    rcases h3 with rfl | ⟨-, rfl⟩
    · exact confReturn_unique h hq hp h1 hr
    · rw [received_coin h q hq r e h2, hc]

/-- **after a lock every honest estimate is its bit** -/
theorem starting_of_locked {r' : ℤ} (hr' : r + 1 ≤ r') :
    ∀ q, C.Honest q → ∀ e, .starting r' e ∈ (s q).st.trace → e = v := by
  induction r', hr' using Int.leInduction with
  | base => exact fun q hq e hst => starting_succ h hl hq hst
  | succ k hk ih =>
    intro q hq e hst
    have hnn := hl.nonneg h
    obtain ⟨hfrom, -⟩ := (reached_call h q hq).backed _ hst
    rcases hfrom with h0 | ⟨V, b, h1, h2, h3⟩
    · omega
    · have er : k + 1 - 1 = k := by omega
      rw [er] at h1 h2
      have hV : V = {v} := confReturn_of_starting h ih hq h1
      rcases h3 with he | ⟨hb, -⟩
      · exact Finset.singleton_injective (he.symm.trans hV)
      · exact absurd (hV.symm.trans hb) (singleton_ne_both v)

theorem confReturn_of_locked {r' : ℤ} (hr' : r + 1 ≤ r') {q : Fin C.N} (hq : C.Honest q)
    {V : Finset Bool} (hV : .confReturn r' V ∈ (s q).st.trace) : V = {v} :=
  confReturn_of_starting h (starting_of_locked h hl hr') hq hV

end

/-- two locks have one bit -/
theorem Locked.unique (h : Reached C (CommonCoin coin) s) {r r' : ℤ} {v w : Bool}
    (hl : Locked coin s r v) (hl' : Locked coin s r' w) : v = w := by
  have later : ∀ {r r' v w}, Locked coin s r v → Locked coin s r' w → r < r' → v = w := by
    intro r r' v w hl hl' hlt
    obtain ⟨-, p, hp, hr⟩ := hl'
    exact (Finset.singleton_injective (confReturn_of_locked h hl (by omega) hp hr)).symm
  rcases lt_trichotomy r r' with hlt | rfl | hlt
  · exact later hl hl' hlt
  · exact hl.1.symm.trans hl'.1
  · exact (later hl' hl hlt).symm

theorem mem_decisions {n : ℕ} {p : Party n} {v : Bool} :
    v ∈ p.decisions ↔ .decide v ∈ p.trace := by
  unfold decisions
  rw [List.mem_filterMap]
  constructor
  · rintro ⟨o, ho, hv⟩
    cases o <;> simp only [outDecide, reduceCtorEq, Option.some.injEq] at hv
    exact hv ▸ ho
  · exact fun h => ⟨_, h, rfl⟩

/-- a decision has a lock behind it -/
theorem locked_of_decision (h : Reached C (CommonCoin coin) s) {p : Fin C.N} (hp : C.Honest p)
    {v : Bool} (hv : v ∈ (s p).st.decisions) : ∃ r, Locked coin s r v := by
  obtain ⟨r, h1, h2⟩ := (reached_call h p hp).backed _ (mem_decisions.mp hv)
  exact ⟨r, (received_coin h p hp r v h2).symm, p, hp, h1⟩

theorem decision_unique (h : Reached C (CommonCoin coin) s) {p q : Fin C.N} (hp : C.Honest p)
    (hq : C.Honest q) {v w : Bool} (hv : v ∈ (s p).st.decisions) (hw : w ∈ (s q).st.decisions) :
    v = w := by
  obtain ⟨r, hl⟩ := locked_of_decision h hp hv
  obtain ⟨r', hl'⟩ := locked_of_decision h hq hw
  exact hl.unique h hl'

/-- **agreement**: under a common coin, in every reachable state, no two honest calls have called
`decide` with different bits, and no honest call has called it twice -/
theorem agreement (C : Committee) (coin : ℤ → Bool) (s : State C)
    (h : Reached C (CommonCoin coin) s) :
    (∀ p q, C.Honest p → C.Honest q → ∀ v w, v ∈ (s p).st.decisions → w ∈ (s q).st.decisions →
      v = w) ∧
    ∀ p, C.Honest p → (s p).st.decisions.length ≤ 1 := by
  refine ⟨fun p q hp hq v w hv hw => ?_, fun p hp => ?_⟩
  · obtain ⟨r, hl⟩ := locked_of_decision h hp hv
    obtain ⟨r', hl'⟩ := locked_of_decision h hq hw
    exact hl.unique h hl'
  · rw [(reached_call h p hp).current.decisions]
    exact Option.length_toList_le

/-- the three honest parties decide 1 in the round 0 -/
def decidingRun : List (Lbl four) :=
  ([0, 1, 2].map fun p => .act p (.input true)) ++ goodRound 0

theorem agreement_four : ∃ s : State four, Reached four (CommonCoin fun _ => true) s ∧
    (∀ p, four.Honest p → (s p).st.decisions = [true]) ∧
    ∀ p, four.Honest p → (s p).st.decisions.length ≤ 1 := by
  obtain ⟨s, hs, hgood⟩ := exists_exec (CommonCoin fun _ => true) (protocol four).start decidingRun
    (fun s => decide (∀ p, four.Honest p → (s p).st.decisions = [true])) (by decide +kernel)
  exact ⟨s, hs, of_decide_eq_true hgood, (agreement four _ s hs).2⟩

end BA
