import HoneyBadgerBFT.Library.Network

/-!
# Draining an asynchronous network

When a protocol sends at most `B` messages on each channel, the messages that are on their way can
all be delivered, one by one and in any order: a run goes from every reachable state to one in which
every honest party has stopped listening or has heard everything.

* `count_le`         no message of an honest party arrives more often than it was sent;
* `exists_drained`   the run, by induction on the deliveries that are left.
-/

namespace Async
open Trans

variable {C : Committee} {σ μ α : Type} [DecidableEq μ]

/-- messages are put at the front of the outboxes -/
def Protocol.Grows (P : Protocol C.N σ μ α) : Prop :=
  (∀ p src m x q, P.sentTo x q <:+ P.sentTo (P.recv p src m x) q) ∧
  (∀ p a x y q, P.act p a x = some y → P.sentTo x q <:+ P.sentTo y q)

variable {P : Protocol C.N σ μ α} {wf : μ → Bool} {ok : Net C.N σ μ → Label C.N μ α → Prop}
  {s t : Net C.N σ μ}

omit [DecidableEq μ] in
theorem Protocol.Grows.monotone (h : P.Grows) : P.Monotone :=
  ⟨fun p src m x q => (h.1 p src m x q).subset, fun p a x y q hy => (h.2 p a x y q hy).subset⟩

/-- no copy of a message that a party has sent is ever taken back -/
def Protocol.Accumulates (P : Protocol C.N σ μ α) : Prop :=
  ∀ p nd o nd', P.ReachableAlone p nd → P.alone p nd o = some nd' → ∀ q,
    (P.sentTo nd.st q).Sublist (P.sentTo nd'.st q)

omit [DecidableEq μ] in
theorem Protocol.Grows.accumulates (h : P.Grows) : P.Accumulates := by
  intro p nd o nd' _ ho q
  refine List.IsSuffix.sublist ?_
  cases o with
  | receive src m' =>
    simp only [Protocol.alone] at ho
    split at ho
    · obtain rfl := Option.some.inj ho
      exact h.1 p src m' nd.st q
    · cases ho
  | act a =>
    obtain ⟨x, hx, rfl⟩ := Option.map_eq_some_iff.mp ho
    exact h.2 p a nd.st x q hx

theorem sentTo_sublist (hg : P.Accumulates) (hs : P.Reachable wf ok s) {e : Label C.N μ α}
    (h : P.next wf s e = some t) (p q : Fin C.N) :
    (P.sentTo (s p).st q).Sublist (P.sentTo (t p).st q) := by
  have hp := reach_alone hs p
  rcases next_at h p with heq | ⟨src, m', -, -, hl, -, heq⟩ | ⟨a, x, -, -, hx, heq⟩ <;> rw [heq]
  · exact hg p _ (.receive src m') _ hp (if_pos hl) q
  · exact hg p _ (.act a) _ hp (congrArg (Option.map _) hx) q

/-- no message of an honest party arrives more often than it was sent -/
theorem count_le (hg : P.Accumulates) (h : P.Reachable wf ok s) : ∀ p, C.Honest p → ∀ src,
    C.Honest src → ∀ m, (s p).rcvd.count (src, m) ≤ (P.sentTo (s src).st p).count m := by
  refine Reach.invariant_of_reach (fun s => ∀ p, C.Honest p → ∀ src, C.Honest src → ∀ m,
    (s p).rcvd.count (src, m) ≤ (P.sentTo (s src).st p).count m) ?_ h ?_
  · intro s e t hr hs _ hn p hp src hsrc m
    have hgrow := (sentTo_sublist hg hr hn src p).count_le m
    refine le_trans ?_ hgrow
    rcases next_at hn p with heq | ⟨src', m', -, -, -, hpend, heq⟩ | ⟨a, x, -, -, -, heq⟩ <;> rw [heq]
    · exact hs p hp src hsrc m
    · rw [List.count_cons]
      by_cases hsame : (src', m') = (src, m)
      · obtain ⟨rfl, rfl⟩ := Prod.mk.inj hsame
        rw [if_pos (beq_self_eq_true _)]
        exact pending_honest hsrc hpend
      · rw [if_neg (by simpa using hsame)]
        exact hs p hp src hsrc m
    · exact hs p hp src hsrc m
  · intro p _ src _ m
    exact Nat.zero_le _

/-- the messages that `p` has got from `src` -/
def arrived (s : Net C.N σ μ) (p src : Fin C.N) : List (Fin C.N × μ) :=
  (s p).rcvd.filter fun x => decide (x.1 = src)

theorem arrived_le (hg : P.Grows) (h : P.Reachable wf ok s) {p src : Fin C.N} (hp : C.Honest p)
    (hsrc : C.Honest src) : (arrived s p src).length ≤ (P.sentTo (s src).st p).length := by
  have hsub : (arrived s p src).Subperm ((P.sentTo (s src).st p).map (Prod.mk src)) := by
    refine List.subperm_ext_iff.mpr fun x hx => ?_
    obtain ⟨hx, hsrcx⟩ := List.mem_filter.mp hx
    obtain ⟨src', m⟩ := x
    obtain rfl : src' = src := of_decide_eq_true hsrcx
    rw [List.count_map_of_injective _ _ (Prod.mk_right_injective src'), arrived,
      List.count_filter (by simp)]
    exact count_le hg.accumulates h p hp src' hsrc m
  simpa using hsub.length_le

/-- deliveries that are left, of at most `B` on each channel -/
def left (B : ℕ) (s : Net C.N σ μ) : ℕ := ∑ x : Fin C.N × Fin C.N, (B - (arrived s x.1 x.2).length)

omit [DecidableEq μ] in
theorem arrived_update (s : Net C.N σ μ) (dst src : Fin C.N) (m : μ) (x : σ) (p q : Fin C.N) :
    arrived (Function.update s dst ⟨x, (src, m) :: (s dst).rcvd⟩) p q =
      if p = dst ∧ q = src then (src, m) :: arrived s p q else arrived s p q := by
  unfold arrived
  by_cases hp : p = dst
  · subst hp
    rw [Function.update_self, List.filter_cons]
    by_cases hq : q = src
    · subst hq
      rw [if_pos (decide_eq_true rfl), if_pos ⟨rfl, rfl⟩]
    · rw [if_neg (by simpa using Ne.symm hq), if_neg (fun h => hq h.2)]
  · rw [Function.update_of_ne hp, if_neg (fun h => hp h.1)]

theorem left_lt {B : ℕ} {dst src : Fin C.N} {m : μ}
    (h : P.next wf s (.deliver dst src m) = some t) (hB : (arrived t dst src).length ≤ B) :
    left B t < left B s := by
  rcases next_cases h with ⟨_, _, _, he, -, -, -, rfl⟩ | ⟨_, _, _, he, -, -, -⟩
  · obtain ⟨rfl, rfl, rfl⟩ := Label.deliver.inj he
    rw [arrived_update, if_pos ⟨rfl, rfl⟩, List.length_cons] at hB
    refine Finset.sum_lt_sum (fun x _ => ?_) ⟨(dst, src), Finset.mem_univ _, ?_⟩
    · rw [arrived_update]
      split
      · rw [List.length_cons]
        omega
      · exact le_refl _
    · dsimp only
      rw [arrived_update, if_pos ⟨rfl, rfl⟩, List.length_cons]
      omega
  · cases he

/-- a message on its way to a party that listens can be delivered -/
theorem exists_deliver {q : Fin C.N} (hq : C.Honest q) (hl : P.listening (s q).st = true)
    (hd : ¬ Delivered P s q) : ∃ src m t, C.Honest src ∧
      P.next wf s (.deliver q src m) = some t := by
  unfold Delivered at hd
  push Not at hd
  obtain ⟨src, hsrc, m, hlt⟩ := hd
  have hpend : P.pending wf s q src m = true := by
    unfold Protocol.pending
    rw [if_pos hsrc]
    exact decide_eq_true hlt
  exact ⟨src, m, _, hsrc, if_pos ⟨hq, hl, hpend⟩⟩

/-- **draining**: if no outbox ever holds more than `B` messages, the messages on their way can be
delivered -/
theorem exists_drained (hg : P.Grows) {B : ℕ}
    (hB : ∀ s, P.Reachable wf ok s → ∀ p, C.Honest p → ∀ q, (P.sentTo (s p).st q).length ≤ B)
    (hok : ∀ s dst src m, C.Honest src → ok s (.deliver dst src m)) (h : P.Reachable wf ok s) :
    ∃ t, Reach (P.next wf) ok s t ∧
      ∀ q, C.Honest q → P.listening (t q).st = false ∨ Delivered P t q := by
  induction hn : left B s using Nat.strong_induction_on generalizing s with
  | _ n ih =>
    by_cases hdone : ∀ q, C.Honest q → P.listening (s q).st = false ∨ Delivered P s q
    · exact ⟨s, Reach.refl s, hdone⟩
    · push Not at hdone
      obtain ⟨q, hq, hl, hd⟩ := hdone
      obtain ⟨src, m, u, hsrc, hu⟩ :=
        exists_deliver hq (Bool.eq_true_of_not_eq_false hl) hd
      have hstep : Step (P.next wf) ok s u := ⟨_, hok s q src m hsrc, hu⟩
      have hur : P.Reachable wf ok u := Reach.tail h hstep
      have hlt := left_lt hu ((arrived_le hg hur hq hsrc).trans (hB u hur src hsrc q))
      obtain ⟨t, ht, hall⟩ := ih _ (hn ▸ hlt) hur rfl
      exact ⟨t, (Reach.tail (Reach.refl s) hstep).trans ht, hall⟩

end Async
