import HoneyBadgerBFT.BinaryAgreement.Agreement
import HoneyBadgerBFT.BinaryAgreement.Progress

/-!
# Binary agreement: who is left when a party quits

A call that has passed a round with the bit of its coin as the only value has decided
(`reached_decides`).  With a common coin an honest party quits in a round that has been locked by
its own decision, so whoever is past that round has decided too (`ahead_of_commonCoin`): that half
of `QuitSafe` is what the common coin gives.
-/

namespace BA
open Async Trans Party

variable {C : Committee} {coin : ℤ → Bool} {s : State C}

/-- a round that returned the bit of the coin alone is one after which the call has decided -/
def Party.Decides {n : ℕ} (p : Party n) : Prop :=
  ∀ r v, .confReturn r {v} ∈ p.trace → .received r v ∈ p.trace → p.alreadyDecided ≠ none

/-- `already_decided` after the coin's answer -/
theorem afterCoin_alreadyDecided {n : ℕ} (p : Party n) (V : Finset Bool) (b : Bool) :
    (p.afterCoin V b).alreadyDecided =
      match setNewEstimate V b p.alreadyDecided with
      | .abandonedNodeError => p.alreadyDecided
      | .next _ d _ => d := by
  unfold afterCoin emit
  dsimp only
  cases setNewEstimate V b p.alreadyDecided with
  | abandonedNodeError => rfl
  | next e d dec => cases dec <;> rfl

theorem setNewEstimate_decided : ∀ (V : Finset Bool) (b : Bool) (d : Option Bool),
    d ≠ none ∨ V = {b} →
      (match setNewEstimate V b d with
      | .abandonedNodeError => d
      | .next _ d' _ => d') ≠ none := by
  decide

theorem afterCoin_decided {n : ℕ} {p : Party n} {V : Finset Bool} {b : Bool}
    (h : p.alreadyDecided ≠ none ∨ V = {b}) : (p.afterCoin V b).alreadyDecided ≠ none := by
  rw [afterCoin_alreadyDecided]
  exact setNewEstimate_decided V b _ h

theorem setNewEstimate_some : ∀ (V : Finset Bool) (b w : Bool),
    (match setNewEstimate V b (some w) with
      | .abandonedNodeError => some w
      | .next _ d' _ => d') = some w := by
  decide

/-- a decision is for good -/
theorem act_alreadyDecided {n f : ℕ} {p p' : Party n} (hc : Call f p) {a : Party.Act}
    (ha : p.act f a = some p') {w : Bool} (hd : p.alreadyDecided = some w) :
    p'.alreadyDecided = some w := by
  rcases act_cases ha with ⟨v, -, hpc, rfl⟩ | ⟨-, -, rfl⟩ | ⟨-, -, rfl⟩ | ⟨-, -, rfl⟩ |
    ⟨-, -, rfl⟩ | ⟨V, b, -, -, rfl⟩
  · exact absurd (hd.symm.trans (hc.current.input hpc).2) (by simp)
  · unfold startRound; dsimp only; split <;> exact hd
  · unfold checkBin; split <;> exact hd
  · unfold checkAux
    split
    · exact hd
    · split <;> exact hd
  · unfold checkConf; split <;> exact hd
  · rw [afterCoin_alreadyDecided, hd]
    exact setNewEstimate_some V b w

/-- a call that acts has not returned -/
theorem act_live {n f : ℕ} {p p' : Party n} {a : Party.Act} (ha : p.act f a = some p') :
    p.pc ≠ .returned := by
  intro hpc
  rcases act_cases ha with ⟨v, -, e, -⟩ | ⟨e, -⟩ | ⟨e, -⟩ | ⟨e, -⟩ | ⟨e, -⟩ | ⟨V, b, e, -⟩ <;>
    cases hpc.symm.trans e

/-- a round comes to return a bit alone and to get it from the coin in the step of the coin -/
theorem act_single {n f : ℕ} {p p' : Party n} (hc : Call f p) {a : Party.Act}
    (ha : p.act f a = some p') {r : ℤ} {v : Bool} (hret : .confReturn r {v} ∈ p'.trace)
    (hrec : .received r v ∈ p'.trace) :
    (.confReturn r {v} ∈ p.trace ∧ .received r v ∈ p.trace) ∨
      r = p.r ∧ p' = p.afterCoin {v} v := by
  rcases act_confReturn ha hret with hold | ⟨rfl, hpc, rfl, -⟩
  · rcases act_received ha hrec with hrec | ⟨rfl, rfl⟩
    · exact .inl ⟨hold, hrec⟩
    · rcases act_cases ha with ⟨v, e, -⟩ | ⟨-, e, -⟩ | ⟨-, e, -⟩ | ⟨-, e, -⟩ | ⟨-, e, -⟩ |
        ⟨V, b, hpc, e, rfl⟩ <;> cases e
      have he := hc.ordered.eq (o := .confReturn p.r {v}) hold (hc.current.coin V hpc) rfl rfl
      exact .inr ⟨rfl, by cases he; rfl⟩
  · rcases act_received ha hrec with hrec | ⟨e, -⟩
    · have hpast := hc.ordered.past hrec rfl
      rw [Past, hpc, Pc.stage] at hpast
      omega
    · cases e

theorem Party.Decides.act {n f : ℕ} {p p' : Party n} (h : p.Decides) (hc : Call f p)
    {a : Party.Act} (ha : p.act f a = some p') : p'.Decides := by
  intro r v hret hrec
  rcases act_single hc ha hret hrec with ⟨hret, hrec⟩ | ⟨-, rfl⟩
  · obtain ⟨w, hw⟩ := Option.ne_none_iff_exists'.mp (h r v hret hrec)
    rw [act_alreadyDecided hc ha hw]
    exact Option.some_ne_none w
  · exact afterCoin_decided (.inr rfl)

/-- the receive loop enters neither returns nor answers of the coin -/
theorem recv_single {n f : ℕ} {p : Party n} {sender : Fin n} {m : Msg} {r : ℤ} {v : Bool}
    (hret : .confReturn r {v} ∈ (p.recv f sender m).trace)
    (hrec : .received r v ∈ (p.recv f sender m).trace) :
    .confReturn r {v} ∈ p.trace ∧ .received r v ∈ p.trace := by
  rcases recv_trace f sender m p with e | ⟨r', v', e, -⟩ <;> rw [e] at hret hrec
  · exact ⟨hret, hrec⟩
  · exact ⟨by simpa using hret, by simpa using hrec⟩

theorem Party.Decides.recv {n f : ℕ} {p : Party n} (h : p.Decides) (sender : Fin n) (m : Msg) :
    (p.recv f sender m).Decides := by
  intro r v hret hrec
  obtain ⟨hret, hrec⟩ := recv_single hret hrec
  rw [(recv_sameMain f sender m p).alreadyDecided]
  exact h r v hret hrec

theorem reached_decides {ok : State C → Lbl C → Prop} (h : Reached C ok s) :
    ∀ p, C.Honest p → (s p).st.Decides := by
  have := node_invariant (fun _ nd => Call C.f nd.st ∧ nd.st.Decides) ?_ ?_ ?_ h
  · exact fun p hp => (this p hp).2
  · exact fun _ _ => ⟨Call.init, fun _ _ hret => by cases hret⟩
  · intro p src m nd _ hnd hl
    exact ⟨hnd.1.recv (of_decide_eq_true hl) src m, hnd.2.recv src m⟩
  · intro p a nd x _ hnd hx
    exact ⟨hnd.1.act hx, hnd.2.act hnd.1 hx⟩

/-- a call that quits has decided before, in a round that its decision has locked, and its coin has
given the same bit again -/
theorem quit_locked (h : Reached C (CommonCoin coin) s) {p : Fin C.N} (hp : C.Honest p)
    (hret : (s p).st.pc = .returned) : ∃ v r, (s p).st.decisions = [v] ∧ r < (s p).st.r ∧
      .confReturn r {v} ∈ (s p).st.trace ∧ Locked coin s r v ∧ v = coin (s p).st.r := by
  have hc := reached_call h p hp
  obtain ⟨v, hv, -, hrec⟩ := hc.current.returned hret
  obtain ⟨r, hlt, h1, h2⟩ := hc.current.decided v hv
  refine ⟨v, r, ?_, hlt, h1, ⟨(received_coin h p hp r v h2).symm, p, hp, h1⟩,
    received_coin h p hp _ v hrec⟩
  rw [hc.current.decisions, hv]
  rfl

/-- whoever was through with the round in which a call quits has decided -/
theorem decided_of_past {t : State C} (hs : Reached C (CommonCoin coin) s)
    (ht : Reach ((protocol C).next Msg.wellFormed) (CommonCoin coin) s t) {p q : Fin C.N}
    (hp : C.Honest p) (hret : (t p).st.pc = .returned) (hq : C.Honest q)
    (hpast : (s q).st.Past (t p).st.r 5) : ∃ w, (s q).st.decisions = [w] := by
  have hr : Reached C (CommonCoin coin) t := hs.trans ht
  have hgrows := reach_grows ht q
  have hd := reached_call hs q hq
  obtain ⟨v, r, -, hlt, -, hl, hcoin⟩ := quit_locked hr hp hret
  -- the round has returned the bit of the lock and of the coin to `q` too
  obtain ⟨V, hV⟩ := hd.ordered.confReturn (r := (t p).st.r) (by unfold Past at hpast ⊢; omega)
  obtain ⟨b, hb⟩ := hd.ordered.received (r := (t p).st.r) hpast
  obtain rfl := confReturn_of_locked hr hl (by omega) hq (hgrows.trace hV)
  obtain rfl : b = v := (received_coin hr q hq _ b (hgrows.trace hb)).trans hcoin.symm
  obtain ⟨w, hw⟩ := Option.ne_none_iff_exists'.mp (reached_decides hs q hq _ _ hV hb)
  refine ⟨w, ?_⟩
  rw [hd.current.decisions, hw]
  rfl

/-- **nobody is past a quitting party undecided** -/
theorem ahead_of_commonCoin (h : Reached C (CommonCoin coin) s) {p q : Fin C.N} (hp : C.Honest p)
    (hq : C.Honest q) (hret : (s p).st.pc = .returned) (hund : (s q).st.decisions = []) :
    (s q).st.r ≤ (s p).st.r := by
  by_contra hlt
  have hnn := (reached_call h p hp).ordered.nonneg
  obtain ⟨w, hw⟩ := decided_of_past h (Reach.refl s) hp hret hq ⟨hnn, .inl (by omega)⟩
  rw [hw] at hund
  cases hund

/-- up to the return of `p`, whoever is through with its round has decided the bit of `p` -/
theorem committed_until_quit {t : State C} (hs : Reached C (CommonCoin coin) s)
    (ht : Reach ((protocol C).next Msg.wellFormed) (CommonCoin coin) s t) {p : Fin C.N}
    (hp : C.Honest p) (hret : (t p).st.pc = .returned) :
    ∃ v, (t p).st.decisions = [v] ∧
      ∀ q, C.Honest q → (s q).st.Past (t p).st.r 5 → (s q).st.decisions = [v] := by
  have hr : Reached C (CommonCoin coin) t := hs.trans ht
  obtain ⟨v, r, hdec, -, -, hl, -⟩ := quit_locked hr hp hret
  refine ⟨v, hdec, fun q hq hpast => ?_⟩
  obtain ⟨w, hw⟩ := decided_of_past hs ht hp hret hq hpast
  -- a decision is a lock, and there is one locked bit
  have hmem : w ∈ (t q).st.decisions := mem_decisions.mpr
    ((reach_grows ht q).trace (mem_decisions.mp (by rw [hw]; exact List.mem_singleton_self w)))
  obtain ⟨r', hl'⟩ := locked_of_decision hr hq hmem
  rw [hw, hl'.unique hr hl]

/-- a call that has returned does nothing any more -/
theorem returned_stays {ok : State C → Lbl C → Prop} {t : State C} {p : Fin C.N}
    (h : Reach ((protocol C).next Msg.wellFormed) ok s t) (hret : (s p).st.pc = .returned) :
    (t p).st.pc = .returned ∧ (t p).st.r = (s p).st.r ∧
      (t p).st.decisions = (s p).st.decisions := by
  refine h.invariant (fun u : State C => (u p).st.pc = .returned ∧ (u p).st.r = (s p).st.r ∧
    (u p).st.decisions = (s p).st.decisions) (fun u e w hu _ hn => ?_) ⟨hret, rfl, rfl⟩
  obtain ⟨hpc, hr, hd⟩ := hu
  rcases next_at hn p with heq | ⟨src, m, -, -, -, -, heq⟩ | ⟨a, x, -, -, hx, -⟩
  · rw [heq]
    exact ⟨hpc, hr, hd⟩
  · have hsame := recv_sameMain C.f src m (u p).st
    rw [heq]
    exact ⟨hsame.pc.trans hpc, hsame.r.trans hr, (recv_decisions C.f src m _).trans hd⟩
  · exact absurd hpc (act_live hx)

/-- **commitment before the return**: when an honest call returns through the exception in the round
`r` of a run with a common coin, it has decided one bit, and in every state `s` of the run, before
the return or after it, every honest party that is through with the round `r`, or in a later one,
has decided this bit -/
theorem committed_before_quit (C : Committee) (coin : ℤ → Bool) (s t : State C)
    (hs : Reached C (CommonCoin coin) s)
    (hrun : Reach ((protocol C).next Msg.wellFormed) (CommonCoin coin) s t ∨
      Reach ((protocol C).next Msg.wellFormed) (CommonCoin coin) t s)
    (p : Fin C.N) (hp : C.Honest p) (hret : (t p).st.pc = .returned) :
    ∃ v, (t p).st.decisions = [v] ∧
      ∀ q, C.Honest q → (s q).st.Past (t p).st.r 5 → (s q).st.decisions = [v] := by
  rcases hrun with hst | hts
  · exact committed_until_quit hs hst hp hret
  · obtain ⟨hpc, hr, hd⟩ := returned_stays hts hret
    rw [← hd, ← hr]
    exact committed_until_quit hs (Reach.refl s) hp hpc

/-- the three honest parties decide 1 in the round 0 and quit in the round 1 -/
def quittingRun : List (Lbl four) :=
  ([0, 1, 2].map fun p => .act p (.input true)) ++ goodRound 0 ++ goodRound 1

theorem committed_before_quit_four : ∃ s : State four, Reached four (CommonCoin fun _ => true) s ∧
    (s 0).st.pc = .returned ∧ (s 1).st.Past (s 0).st.r 5 ∧
    (s 0).st.decisions = (s 1).st.decisions := by
  obtain ⟨s, hs, hgood⟩ := exists_exec (CommonCoin fun _ => true) (protocol four).start quittingRun
    (fun s : State four => decide ((s 0).st.pc = .returned ∧ (s 1).st.Past (s 0).st.r 5))
    (by decide +kernel)
  obtain ⟨hret, hpast⟩ := of_decide_eq_true hgood
  obtain ⟨v, hv, hall⟩ := committed_before_quit four (fun _ => true) s s hs (.inl (Reach.refl s)) 0
    (by decide) hret
  exact ⟨s, hs, hret, hpast, hv.trans (hall 1 (by decide) hpast).symm⟩

end BA
