import HoneyBadgerBFT.BinaryAgreement.Invariant
import HoneyBadgerBFT.Library.Drain

/-!
# Binary agreement: rounds of the whole committee

The calls of the honest parties run over a network (`Async.Protocol.next`); Byzantine parties may
send any message of `Msg.wellFormed`, different ones to different parties.

* `reached_call`         the invariant `Call` at every honest party;
* `reached_heard`        the senders in a table have sent what the table says;
* `est_grounded`         an EST message of an honest party goes back to an honest estimate;
* `bin_started`          so does a bit of `bin_values`;
* `confReturn_unique`    two honest parties do not leave `wait_for_conf_values` with different bits.
-/

namespace BA
open Async Trans Party

variable {C : Committee}

abbrev State (C : Committee) := Net C.N (Party C.N) Msg

abbrev Lbl (C : Committee) := Label C.N Msg Party.Act

/-- reachable states, under an assumption on the steps -/
abbrev Reached (C : Committee) (ok : State C → Lbl C → Prop) (s : State C) : Prop :=
  (protocol C).Reachable Msg.wellFormed ok s

/-- the coin of every round answers the same bit to every honest party -/
def CommonCoin (coin : ℤ → Bool) (s : State C) : Lbl C → Prop
  | .act p (.coin b) => b = coin (s p).st.r
  | _ => True

/-- a Byzantine party sends no message twice to the same party -/
def AtMostOnce (s : State C) : Lbl C → Prop
  | .deliver dst src m => ¬ C.Honest src → (src, m) ∉ (s dst).rcvd
  | _ => True

instance (coin : ℤ → Bool) (s : State C) : DecidablePred (CommonCoin coin s)
  | .act p (.coin b) => inferInstanceAs (Decidable (b = coin (s p).st.r))
  | .act _ (.input _) => isTrue trivial
  | .act _ .main => isTrue trivial
  | .deliver _ _ _ => isTrue trivial

instance (s : State C) : DecidablePred (AtMostOnce s)
  | .deliver dst src m => inferInstanceAs (Decidable (¬ C.Honest src → (src, m) ∉ (s dst).rcvd))
  | .act _ _ => isTrue trivial

/-- the state after a schedule -/
def exec (ok : State C → Lbl C → Prop) [∀ s, DecidablePred (ok s)] (s : State C)
    (l : List (Lbl C)) : Option (State C) :=
  Trans.exec ((protocol C).next Msg.wellFormed) (fun s e => decide (ok s e)) s l

theorem exists_exec (ok : State C → Lbl C → Prop) [∀ s, DecidablePred (ok s)] (s : State C)
    (l : List (Lbl C)) (good : State C → Bool) (h : (exec ok s l).any good = true) :
    ∃ t, Reach ((protocol C).next Msg.wellFormed) ok s t ∧ good t = true :=
  exists_reach_of_exec (fun _ _ => of_decide_eq_true) h

/-- a run from the start and one more step `e`, with a condition before it and one after it -/
theorem exists_exec_step (ok : State C → Lbl C → Prop) [∀ s, DecidablePred (ok s)] (l : List (Lbl C))
    (e : Lbl C) (pre post : State C → Prop) [DecidablePred pre] [DecidablePred post]
    (h : (exec ok (protocol C).start l).any (fun s => decide (pre s) &&
      ((protocol C).next Msg.wellFormed s e).any fun t => decide (post t)) = true) :
    ∃ s t, Reached C ok s ∧ (protocol C).next Msg.wellFormed s e = some t ∧ pre s ∧ post t :=
  exists_step_of_exec (fun _ _ => of_decide_eq_true) h

/-- in a schedule: `m` arrives from each of `srcs` -/
def arrive (srcs : List (Fin C.N)) (m : Msg) (dst : Fin C.N) : List (Lbl C) :=
  srcs.map fun src => .deliver dst src m

/-- in a schedule: `k` steps of the main loop -/
def go (k : ℕ) (p : Fin C.N) : List (Lbl C) := List.replicate k (.act p .main)

/-- in a schedule: the input, and the main loop up to the first test of `bin_values` -/
def begin (v : Bool) (p : Fin C.N) : List (Lbl C) := .act p (.input v) :: go 2 p

/-- four parties, the last of them Byzantine -/
def four : Committee := Committee.four

/-- a round in which the three honest parties start with 1 and get the coin 1; the Byzantine one is
silent -/
def goodRound (r : ℤ) : List (Lbl four) :=
  let all : List (Fin four.N) := [0, 1, 2]
  all.flatMap (go 2) ++ all.flatMap (arrive all (.EST r true)) ++ all.flatMap (go 1) ++
    all.flatMap (arrive all (.AUX r true)) ++ all.flatMap (go 1) ++
    all.flatMap (arrive all (.CONF r [true])) ++ all.flatMap (go 1) ++
    all.map fun p => .act p (.coin true)

/-! ## the calls of the honest parties -/

variable {ok : State C → Lbl C → Prop} {s t : State C}

theorem sent_subset {p p' : Party C.N} (h : p.Grows p') : p.sent ⊆ p'.sent :=
  fun _ hm => mem_sent.mpr (h.trace (mem_sent.mp hm))

theorem grows : (protocol C).Grows :=
  ⟨fun _ src m x _ => (recv_suffix C.f src m x).filterMap outMsg,
    fun _ _ _ _ _ h => (act_suffix h).filterMap outMsg⟩

theorem monotone : (protocol C).Monotone := grows.monotone

theorem reached_call (h : Reached C ok s) : ∀ p, C.Honest p → Call C.f (s p).st := by
  refine node_invariant (fun _ nd => Call C.f nd.st) (fun _ _ => Call.init) ?_ ?_ h
  · intro p src m nd _ hnd hl
    exact hnd.recv (of_decide_eq_true hl) src m
  · intro p a nd x _ hnd hx
    exact hnd.act hx

theorem next_grows {e : Lbl C} (h : (protocol C).next Msg.wellFormed s e = some t) (p : Fin C.N) :
    (s p).st.Grows (t p).st := by
  rcases next_at h p with heq | ⟨src, m, -, -, -, -, heq⟩ | ⟨a, x, -, -, hx, heq⟩ <;> rw [heq]
  · exact Grows.refl _
  · exact recv_grows C.f src m _
  · exact act_grows hx

theorem reach_grows (h : Reach ((protocol C).next Msg.wellFormed) ok s t) (p : Fin C.N) :
    (s p).st.Grows (t p).st :=
  h.invariant (fun u => (s p).st.Grows (u p).st)
    (fun _ _ _ hu _ hn => hu.trans (next_grows hn p)) (Grows.refl _)

/-! ## tables and messages -/

/-- the senders in the tables are senders of messages that have arrived -/
structure Heard (nd : Node C.N (Party C.N) Msg) : Prop where
  est : ∀ b r v, b ∈ nd.st.estValues r v → (b, .EST r v) ∈ nd.rcvd
  aux : ∀ b r v, b ∈ nd.st.auxValues r v → (b, .AUX r v) ∈ nd.rcvd
  conf : ∀ b r c, b ∈ nd.st.confValues r c → (b, .CONF r c) ∈ nd.rcvd

theorem Heard.arrived {nd : Node C.N (Party C.N) Msg} (h : Heard nd) {sender : Fin C.N} {m : Msg}
    (hm : nd.st.Entered sender m) : (sender, m) ∈ nd.rcvd := by
  cases m with
  | EST r v => exact h.est sender r v hm
  | AUX r v => exact h.aux sender r v hm
  | CONF r c => exact h.conf sender r c hm

theorem Heard.recv {nd : Node C.N (Party C.N) Msg} (h : Heard nd) (src : Fin C.N) (m : Msg) :
    Heard ⟨nd.st.recv C.f src m, (src, m) :: nd.rcvd⟩ := by
  have harrived : ∀ b m', (nd.st.recv C.f src m).Entered b m' → (b, m') ∈ (src, m) :: nd.rcvd := by
    intro b m' hm
    rcases entered_recv hm with hold | ⟨rfl, rfl, -⟩
    · exact List.mem_cons_of_mem _ (h.arrived hold)
    · exact List.mem_cons_self
  exact ⟨fun b r v => harrived b (.EST r v), fun b r v => harrived b (.AUX r v),
    fun b r c => harrived b (.CONF r c)⟩

/-- the actions of a call leave the tables of the receive loop alone -/
theorem act_tables {n f : ℕ} {p p' : Party n} {a : Party.Act} (h : p.act f a = some p') :
    p'.estValues = p.estValues ∧ p'.auxValues = p.auxValues ∧ p'.confValues = p.confValues ∧
      p'.binValues = p.binValues := by
  rcases act_cases h with ⟨v, -, -, rfl⟩ | ⟨-, -, rfl⟩ | ⟨-, -, rfl⟩ | ⟨-, -, rfl⟩ | ⟨-, -, rfl⟩ |
    ⟨V, b, -, -, rfl⟩
  · exact ⟨rfl, rfl, rfl, rfl⟩
  · unfold startRound; dsimp only; split <;> exact ⟨rfl, rfl, rfl, rfl⟩
  · unfold checkBin; split <;> exact ⟨rfl, rfl, rfl, rfl⟩
  · unfold checkAux
    split
    · exact ⟨rfl, rfl, rfl, rfl⟩
    · split <;> exact ⟨rfl, rfl, rfl, rfl⟩
  · unfold checkConf; split <;> exact ⟨rfl, rfl, rfl, rfl⟩
  · unfold afterCoin
    dsimp only
    split
    · exact ⟨rfl, rfl, rfl, rfl⟩
    · split <;> exact ⟨rfl, rfl, rfl, rfl⟩

theorem reached_heard (h : Reached C ok s) : ∀ p, C.Honest p → Heard (s p) := by
  refine node_invariant (fun _ nd => Heard nd) ?_ ?_ ?_ h
  · intro p _
    exact ⟨fun b r v hb => absurd hb (Finset.notMem_empty b),
      fun b r v hb => absurd hb (Finset.notMem_empty b),
      fun b r c hb => absurd hb (Finset.notMem_empty b)⟩
  · intro p src m nd _ hnd _
    exact hnd.recv src m
  · intro p a nd x _ hnd hx
    obtain ⟨h1, h2, h3, -⟩ := act_tables hx
    exact ⟨fun b r v hb => hnd.est b r v (h1 ▸ hb), fun b r v hb => hnd.aux b r v (h2 ▸ hb),
      fun b r c hb => hnd.conf b r c (h3 ▸ hb)⟩

section
variable (h : Reached C ok s) {p q : Fin C.N} (hp : C.Honest p) (hq : C.Honest q)
include h hp hq

theorem est_sent {r : ℤ} {v : Bool} (hm : q ∈ (s p).st.estValues r v) :
    .EST r v ∈ (s q).st.sent := by
  have := authentic monotone h p hp q _ ((reached_heard h p hp).est q r v hm)
  rwa [if_pos hq] at this

theorem aux_sent {r : ℤ} {v : Bool} (hm : q ∈ (s p).st.auxValues r v) :
    .AUX r v ∈ (s q).st.sent := by
  have := authentic monotone h p hp q _ ((reached_heard h p hp).aux q r v hm)
  rwa [if_pos hq] at this

theorem conf_sent {r : ℤ} {c : List Bool} (hm : q ∈ (s p).st.confValues r c) :
    .CONF r c ∈ (s q).st.sent := by
  have := authentic monotone h p hp q _ ((reached_heard h p hp).conf q r c hm)
  rwa [if_pos hq] at this

end

/-! ## where estimates come from -/

/-- an EST message of an honest party goes back to an honest party's estimate in that round -/
def Grounded (s : State C) : Prop :=
  ∀ q, C.Honest q → ∀ r v, .EST r v ∈ (s q).st.sent →
    ∃ p, C.Honest p ∧ .starting r v ∈ (s p).st.trace

theorem Grounded.step (h : Reached C ok s) (hs : Grounded s) {e : Lbl C}
    (hn : (protocol C).next Msg.wellFormed s e = some t) (ht : Reached C ok t) : Grounded t := by
  intro q hq r v hm
  obtain ⟨-, hb | hb⟩ := (reached_call ht q hq).backed _ (mem_sent.mp hm)
  · exact ⟨q, hq, hb⟩
  · -- a relay: one of the `f+1` senders is honest, and sent the message before this step
    obtain ⟨b, hb, hbh⟩ := Committee.exists_honest hb
    have hold := (authentic monotone h).sent_before hn hq ((reached_heard ht q hq).est b r v hb)
    rw [if_pos hbh] at hold
    obtain ⟨p, hp, hst⟩ := hs b hbh r v hold
    exact ⟨p, hp, (next_grows hn p).trace hst⟩

theorem est_grounded (h : Reached C ok s) : Grounded s := by
  refine Reach.invariant_of_reach Grounded (fun a e b ha hg he hn => ?_) h ?_
  · exact hg.step ha hn (Reach.tail ha ⟨e, he, hn⟩)
  · intro q _ r v hm
    cases hm

/-- a bit of `bin_values` was the estimate of an honest party in that round -/
theorem bin_started (h : Reached C ok s) {q : Fin C.N} (hq : C.Honest q) {r : ℤ} {v : Bool}
    (hv : v ∈ (s q).st.binValues r) : ∃ p, C.Honest p ∧ .starting r v ∈ (s p).st.trace := by
  have hcard := ((reached_call h q hq).table.bin_iff r v).mp hv
  obtain ⟨b, hb, hbh⟩ := Committee.exists_honest (C := C) (A := (s q).st.estValues r v) (by omega)
  exact est_grounded h b hbh r v (est_sent h hq hbh hb)

/-! ## the CONF phase -/

theorem singleton_of_conf {B : Finset Bool} {v : Bool} (hB : [v] = iter B) : B = {v} := by
  revert hB
  revert v B
  decide

theorem singleton_ne_both (v : Bool) : ({v} : Finset Bool) ≠ {false, true} := by
  revert v
  decide

section
variable (h : Reached C ok s) {p q : Fin C.N} (hp : C.Honest p) (hq : C.Honest q)
include h hp

theorem aux_unique {r : ℤ} {v w : Bool} (h1 : .AUX r v ∈ (s p).st.sent)
    (h2 : .AUX r w ∈ (s p).st.sent) : v = w := by
  have := (reached_call h p hp).ordered.eq (mem_sent.mp h1) (mem_sent.mp h2) rfl rfl
  cases this
  rfl

theorem conf_unique {r : ℤ} {c d : List Bool} (h1 : .CONF r c ∈ (s p).st.sent)
    (h2 : .CONF r d ∈ (s p).st.sent) : c = d := by
  have := (reached_call h p hp).ordered.eq (mem_sent.mp h1) (mem_sent.mp h2) rfl rfl
  cases this
  rfl

/-- a party that returned `{v}` from `wait_for_conf_values` has a quorum of CONF messages for it -/
theorem confReturn_quorum {r : ℤ} {v : Bool} (hr : .confReturn r {v} ∈ (s p).st.trace) :
    v ∈ (s p).st.binValues r ∧ C.N - C.f ≤ ((s p).st.confValues r [v]).card := by
  rcases (reached_call h p hp).backed _ hr with ⟨w, hw, h1, h2⟩ | ⟨hb, -⟩
  · obtain rfl : v = w := Finset.singleton_injective hw
    exact ⟨h1, h2⟩
  · exact absurd hb (singleton_ne_both v)

include hq

/-- two honest CONF messages of a round do not name one bit each -/
theorem conf_single_agree {r : ℤ} {v w : Bool} (h1 : .CONF r [v] ∈ (s p).st.sent)
    (h2 : .CONF r [w] ∈ (s q).st.sent) : v = w := by
  obtain ⟨B, -, -, hB, hA⟩ := (reached_call h p hp).backed _ (mem_sent.mp h1)
  obtain ⟨D, -, -, hD, hE⟩ := (reached_call h q hq).backed _ (mem_sent.mp h2)
  obtain ⟨b, hb1, hb2, hb⟩ := Committee.quorum_inter (hA v (singleton_of_conf hB))
    (hE w (singleton_of_conf hD))
  exact aux_unique h hb (aux_sent h hp hb hb1) (aux_sent h hq hb hb2)

theorem confReturn_unique {r : ℤ} {v w : Bool} (h1 : .confReturn r {v} ∈ (s p).st.trace)
    (h2 : .confReturn r {w} ∈ (s q).st.trace) : v = w := by
  obtain ⟨-, hA⟩ := confReturn_quorum h hp h1
  obtain ⟨-, hB⟩ := confReturn_quorum h hq h2
  obtain ⟨b, hb1, hb2, hb⟩ := Committee.quorum_inter hA hB
  have := conf_unique h hb (conf_sent h hp hb hb1) (conf_sent h hq hb hb2)
  simpa using this

end

/-- a round in which every honest party starts with `v` returns `{v}` -/
theorem confReturn_of_starting (h : Reached C ok s) {v : Bool} {r : ℤ}
    (hall : ∀ q, C.Honest q → ∀ e, .starting r e ∈ (s q).st.trace → e = v) {q : Fin C.N}
    (hq : C.Honest q) {V : Finset Bool} (hV : .confReturn r V ∈ (s q).st.trace) : V = {v} := by
  have hbin : ∀ w, w ∈ (s q).st.binValues r → w = v := by
    intro w hw
    obtain ⟨p, hp, hst⟩ := bin_started h hq hw
    exact hall p hp w hst
  rcases (reached_call h q hq).backed _ hV with ⟨w, rfl, hw, -⟩ | ⟨-, hb⟩
  · rw [hbin w hw]
  · exact absurd ((hbin true (hb true)).trans (hbin false (hb false)).symm) (by decide)

end BA
