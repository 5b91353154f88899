import HoneyBadgerBFT.Library.Transition
import HoneyBadgerBFT.Library.Quorum

/-!
# Asynchronous networks with authenticated channels

`Protocol n σ μ α` is the code that one honest party of `n` runs: its local states `σ`, what it
does with a message of type `μ`, and its other atomic actions `α` (an input arrives, a thread goes
on, an oracle answers).  `next` runs the protocol at every honest party of a committee:

* `deliver dst src m`   the party `dst` takes the message `m` from the channel of `src`.  If `src`
                        is honest, `m` was sent to `dst` and not all its copies have arrived; if
                        `src` is Byzantine, `m` is any message that passes the test `wf`;
* `act p a`             the honest party `p` does the action `a`.

Every node keeps the list `rcvd` of what has arrived, so the state of a channel is the difference
between two lists and there is no third record of it.  Messages may be delivered in any order and
be delayed for ever.

* `node_invariant`   an invariant of one node, proved action by action;
* `alone`            one party on its own, which takes any message from anybody: what a network
                     does to a party is a run of it (`reach_alone`);
* `authentic`        what arrived from an honest party was sent by it;
* `Delivered`        nothing is left in the channels between honest parties.
-/

namespace Async
open Trans

/-- the code of one party -/
structure Protocol (n : ℕ) (σ μ α : Type) where
  init : Fin n → σ
  listening : σ → Bool
  recv : Fin n → Fin n → μ → σ → σ
  act : Fin n → α → σ → Option σ
  sentTo : σ → Fin n → List μ

/-- a party's state with the list of the messages that have arrived, newest first -/
structure Node (n : ℕ) (σ μ : Type) where
  st : σ
  rcvd : List (Fin n × μ)

abbrev Net (n : ℕ) (σ μ : Type) := Fin n → Node n σ μ

inductive Label (n : ℕ) (μ α : Type) where
  | deliver (dst src : Fin n) (m : μ)
  | act (p : Fin n) (a : α)

section
variable {C : Committee} {σ μ α : Type} [DecidableEq μ]

namespace Protocol
variable (P : Protocol C.N σ μ α) (wf : μ → Bool)

def start : Net C.N σ μ := fun p => ⟨P.init p, []⟩

/-- the channel from `src` to `dst` has a copy of `m` to deliver -/
def pending (s : Net C.N σ μ) (dst src : Fin C.N) (m : μ) : Bool :=
  if C.Honest src then (s dst).rcvd.count (src, m) < (P.sentTo (s src).st dst).count m else wf m

def next (s : Net C.N σ μ) : Label C.N μ α → Option (Net C.N σ μ)
  | .deliver dst src m =>
    if C.Honest dst ∧ P.listening (s dst).st = true ∧ P.pending wf s dst src m = true then
      some (Function.update s dst ⟨P.recv dst src m (s dst).st, (src, m) :: (s dst).rcvd⟩)
    else none
  | .act p a =>
    if C.Honest p then
      (P.act p a (s p).st).map fun x => Function.update s p ⟨x, (s p).rcvd⟩
    else none

/-- the states of the runs whose steps all meet `ok` -/
def Reachable (ok : Net C.N σ μ → Label C.N μ α → Prop) (s : Net C.N σ μ) : Prop :=
  Reach (P.next wf) ok P.start s

end Protocol

variable {P : Protocol C.N σ μ α} {wf : μ → Bool} {ok : Net C.N σ μ → Label C.N μ α → Prop}
  {s t : Net C.N σ μ}

/-- everything a step can do -/
theorem next_cases {e : Label C.N μ α} (h : P.next wf s e = some t) :
    (∃ dst src m, e = .deliver dst src m ∧ C.Honest dst ∧ P.listening (s dst).st = true ∧
      P.pending wf s dst src m = true ∧
      t = Function.update s dst ⟨P.recv dst src m (s dst).st, (src, m) :: (s dst).rcvd⟩) ∨
    (∃ p a x, e = .act p a ∧ C.Honest p ∧ P.act p a (s p).st = some x ∧
      t = Function.update s p ⟨x, (s p).rcvd⟩) := by
  cases e with
  | deliver dst src m =>
    simp only [Protocol.next] at h
    split at h
    · next hg => exact .inl ⟨dst, src, m, rfl, hg.1, hg.2.1, hg.2.2, (Option.some.inj h).symm⟩
    · cases h
  | act p a =>
    simp only [Protocol.next] at h
    split at h
    · next hp =>
      obtain ⟨x, hx, ht⟩ := Option.map_eq_some_iff.mp h
      exact .inr ⟨p, a, x, rfl, hp, hx, ht.symm⟩
    · cases h

/-- everything a step can do to one node -/
theorem next_at {e : Label C.N μ α} (h : P.next wf s e = some t) (p : Fin C.N) :
    t p = s p ∨
    (∃ src m, e = .deliver p src m ∧ C.Honest p ∧ P.listening (s p).st = true ∧
      P.pending wf s p src m = true ∧ t p = ⟨P.recv p src m (s p).st, (src, m) :: (s p).rcvd⟩) ∨
    (∃ a x, e = .act p a ∧ C.Honest p ∧ P.act p a (s p).st = some x ∧ t p = ⟨x, (s p).rcvd⟩) := by
  rcases next_cases h with ⟨dst, src, m, rfl, hd, hl, hpend, rfl⟩ | ⟨q, a, x, rfl, hq, hx, rfl⟩
  · by_cases hpd : p = dst
    · subst hpd
      exact .inr (.inl ⟨src, m, rfl, hd, hl, hpend, Function.update_self ..⟩)
    · exact .inl (Function.update_of_ne hpd ..)
  · by_cases hpq : p = q
    · subst hpq
      exact .inr (.inr ⟨a, x, rfl, hq, hx, Function.update_self ..⟩)
    · exact .inl (Function.update_of_ne hpq ..)

/-- what has arrived stays in the list -/
theorem next_rcvd {e : Label C.N μ α} (h : P.next wf s e = some t) (p : Fin C.N) :
    (s p).rcvd ⊆ (t p).rcvd := by
  rcases next_at h p with heq | ⟨src, m, -, -, -, -, heq⟩ | ⟨a, x, -, -, -, heq⟩ <;> rw [heq]
  · exact List.Subset.refl _
  · exact List.subset_cons_self _ _
  · exact List.Subset.refl _

theorem pending_honest {dst src : Fin C.N} {m : μ} (hs : C.Honest src)
    (h : P.pending wf s dst src m = true) :
    (s dst).rcvd.count (src, m) < (P.sentTo (s src).st dst).count m := by
  simpa [Protocol.pending, hs] using h

theorem pending_byz {dst src : Fin C.N} {m : μ} (hs : ¬ C.Honest src)
    (h : P.pending wf s dst src m = true) : wf m = true := by
  simpa [Protocol.pending, hs] using h

/-- **node rule**: an invariant of one node, kept by every arrival and every action, holds of every
honest node in every reachable state -/
theorem node_invariant (I : Fin C.N → Node C.N σ μ → Prop)
    (hinit : ∀ p, C.Honest p → I p ⟨P.init p, []⟩)
    (hrecv : ∀ p src m nd, C.Honest p → I p nd → P.listening nd.st = true →
      I p ⟨P.recv p src m nd.st, (src, m) :: nd.rcvd⟩)
    (hact : ∀ p a nd x, C.Honest p → I p nd → P.act p a nd.st = some x → I p ⟨x, nd.rcvd⟩)
    (h : P.Reachable wf ok s) : ∀ p, C.Honest p → I p (s p) := by
  refine Reach.invariant (fun s => ∀ p, C.Honest p → I p (s p)) ?_ h hinit
  intro s e t hs _ hn p hp
  rcases next_at hn p with heq | ⟨src, m, -, -, hl, -, heq⟩ | ⟨a, x, -, -, hx, heq⟩ <;> rw [heq]
  · exact hs p hp
  · exact hrecv p src m _ hp (hs p hp) hl
  · exact hact p a _ x hp (hs p hp) hx

/-! ## one party on its own -/

/-- what can happen to one party: a message arrives, from anybody, or it acts -/
inductive Occurrence (n : ℕ) (μ α : Type) where
  | receive (src : Fin n) (m : μ)
  | act (a : α)

namespace Protocol
variable {n : ℕ} (P : Protocol n σ μ α) (p : Fin n)

/-- the node of the party `p`, with any message at any time -/
def alone (nd : Node n σ μ) : Occurrence n μ α → Option (Node n σ μ)
  | .receive src m =>
    if P.listening nd.st = true then some ⟨P.recv p src m nd.st, (src, m) :: nd.rcvd⟩ else none
  | .act a => (P.act p a nd.st).map fun x => ⟨x, nd.rcvd⟩

/-- the states of a party in all runs of its own -/
def ReachableAlone (nd : Node n σ μ) : Prop :=
  Reach (P.alone p) (fun _ _ => True) ⟨P.init p, []⟩ nd

variable {P p}

omit [DecidableEq μ] in
theorem ReachableAlone.receive {nd : Node n σ μ} (h : P.ReachableAlone p nd)
    (hl : P.listening nd.st = true) (src : Fin n) (m : μ) :
    P.ReachableAlone p ⟨P.recv p src m nd.st, (src, m) :: nd.rcvd⟩ :=
  Reach.tail h ⟨.receive src m, trivial, if_pos hl⟩

omit [DecidableEq μ] in
theorem ReachableAlone.act {nd : Node n σ μ} (h : P.ReachableAlone p nd) {a : α} {x : σ}
    (hx : P.act p a nd.st = some x) : P.ReachableAlone p ⟨x, nd.rcvd⟩ :=
  Reach.tail h ⟨.act a, trivial, congrArg (Option.map _) hx⟩

end Protocol

omit [DecidableEq μ] in
/-- **node rule, one party**: an invariant kept by every arrival and every action -/
theorem alone_invariant {n : ℕ} {P : Protocol n σ μ α} {p : Fin n} (I : Node n σ μ → Prop)
    (hinit : I ⟨P.init p, []⟩)
    (hrecv : ∀ src m nd, I nd → P.listening nd.st = true →
      I ⟨P.recv p src m nd.st, (src, m) :: nd.rcvd⟩)
    (hact : ∀ a nd x, I nd → P.act p a nd.st = some x → I ⟨x, nd.rcvd⟩)
    {nd : Node n σ μ} (h : P.ReachableAlone p nd) : I nd := by
  refine Reach.invariant I (fun nd e nd' hnd _ hn => ?_) h hinit
  cases e with
  | receive src m =>
    simp only [Protocol.alone] at hn
    split at hn
    · next hl =>
      rw [← Option.some.inj hn]
      exact hrecv src m nd hnd hl
    · cases hn
  | act a =>
    obtain ⟨x, hx, rfl⟩ := Option.map_eq_some_iff.mp hn
    exact hact a nd x hnd hx

/-- **projection**: in the runs of a network every party does what it can do on its own -/
theorem reach_alone (h : P.Reachable wf ok s) (p : Fin C.N) : P.ReachableAlone p (s p) := by
  refine Reach.invariant (fun s : Net C.N σ μ => P.ReachableAlone p (s p))
    (fun s e t hs _ hn => ?_) h (Reach.refl _)
  rcases next_at hn p with heq | ⟨src, m, -, -, hl, -, heq⟩ | ⟨a, x, -, -, hx, heq⟩ <;> rw [heq]
  · exact hs
  · exact hs.receive hl src m
  · exact hs.act hx

/-- what is to be delivered passes the test, if honest parties send nothing else -/
theorem wf_of_pending {dst src : Fin C.N} {m : μ}
    (hsent : C.Honest src → ∀ m ∈ P.sentTo (s src).st dst, wf m = true)
    (h : P.pending wf s dst src m = true) : wf m = true := by
  by_cases hs : C.Honest src
  · have hlt := pending_honest hs h
    exact hsent hs m (List.count_pos_iff.mp (by omega))
  · exact pending_byz hs h

/-- the node rule where the invariant says that a party sends only what passes the test -/
theorem node_invariant_wf (I : Fin C.N → Node C.N σ μ → Prop)
    (hsent : ∀ p nd, C.Honest p → I p nd → ∀ q, ∀ m ∈ P.sentTo nd.st q, wf m = true)
    (hinit : ∀ p, C.Honest p → I p ⟨P.init p, []⟩)
    (hrecv : ∀ p src m nd, C.Honest p → I p nd → P.listening nd.st = true → wf m = true →
      I p ⟨P.recv p src m nd.st, (src, m) :: nd.rcvd⟩)
    (hact : ∀ p a nd x, C.Honest p → I p nd → P.act p a nd.st = some x → I p ⟨x, nd.rcvd⟩)
    (h : P.Reachable wf ok s) : ∀ p, C.Honest p → I p (s p) := by
  refine Reach.invariant (fun s => ∀ p, C.Honest p → I p (s p)) ?_ h hinit
  intro s e t hs _ hn p hp
  rcases next_at hn p with heq | ⟨src, m, -, -, hl, hpend, heq⟩ | ⟨a, x, -, -, hx, heq⟩ <;> rw [heq]
  · exact hs p hp
  · exact hrecv p src m _ hp (hs p hp) hl
      (wf_of_pending (fun hsrc => hsent src _ hsrc (hs src hsrc) p) hpend)
  · exact hact p a _ x hp (hs p hp) hx

/-- what a party has sent is never taken back -/
def Protocol.Monotone (P : Protocol C.N σ μ α) : Prop :=
  (∀ p src m x q, P.sentTo x q ⊆ P.sentTo (P.recv p src m x) q) ∧
  (∀ p a x y q, P.act p a x = some y → P.sentTo x q ⊆ P.sentTo y q)

theorem sentTo_mono (hm : P.Monotone) {e : Label C.N μ α} (h : P.next wf s e = some t)
    (p q : Fin C.N) : P.sentTo (s p).st q ⊆ P.sentTo (t p).st q := by
  rcases next_at h p with heq | ⟨src, m, -, -, -, -, heq⟩ | ⟨a, x, -, -, hx, heq⟩ <;> rw [heq]
  · exact List.Subset.refl _
  · exact hm.1 _ _ _ _ _
  · exact hm.2 _ _ _ _ _ hx

/-- messages of honest parties are authentic, messages of Byzantine ones well formed -/
def Authentic (P : Protocol C.N σ μ α) (wf : μ → Bool) (s : Net C.N σ μ) : Prop :=
  ∀ p, C.Honest p → ∀ src m, (src, m) ∈ (s p).rcvd →
    if C.Honest src then m ∈ P.sentTo (s src).st p else wf m = true

/-- what has arrived after a step was sent before it -/
theorem Authentic.sent_before (hs : Authentic P wf s) {e : Label C.N μ α}
    (h : P.next wf s e = some t) {p src : Fin C.N} (hp : C.Honest p) {m : μ}
    (hmem : (src, m) ∈ (t p).rcvd) :
    if C.Honest src then m ∈ P.sentTo (s src).st p else wf m = true := by
  rcases next_at h p with heq | ⟨src', m', -, -, -, hpend, heq⟩ | ⟨a, x, -, -, -, heq⟩ <;>
    rw [heq] at hmem
  · exact hs p hp src m hmem
  · rcases List.mem_cons.mp hmem with he | hold
    · obtain ⟨rfl, rfl⟩ := Prod.mk.inj he
      split
      · next hh =>
        have hlt := pending_honest hh hpend
        exact List.count_pos_iff.mp (by omega)
      · next hh => exact pending_byz hh hpend
    · exact hs p hp src m hold
  · exact hs p hp src m hmem

theorem Authentic.step (hm : P.Monotone) {e : Label C.N μ α} (hs : Authentic P wf s)
    (h : P.next wf s e = some t) : Authentic P wf t := by
  intro p hp src m hmem
  have hold := hs.sent_before h hp hmem
  split
  · next hh =>
    rw [if_pos hh] at hold
    exact sentTo_mono hm h src p hold
  · next hh => rwa [if_neg hh] at hold

/-- **authenticated channels** -/
theorem authentic (hm : P.Monotone) (h : P.Reachable wf ok s) : Authentic P wf s :=
  Reach.invariant _ (fun _ _ _ hs _ hn => hs.step hm hn) h
    (fun _ _ _ _ hmem => absurd hmem (by simp [Protocol.start]))

/-- every message from an honest party to the party `q` has arrived -/
def Delivered (P : Protocol C.N σ μ α) (s : Net C.N σ μ) (q : Fin C.N) : Prop :=
  ∀ p, C.Honest p → ∀ m, (P.sentTo (s p).st q).count m ≤ (s q).rcvd.count (p, m)

theorem delivered_iff {q : Fin C.N} : Delivered P s q ↔
    ∀ p, C.Honest p → ∀ m ∈ P.sentTo (s p).st q,
      (P.sentTo (s p).st q).count m ≤ (s q).rcvd.count (p, m) := by
  refine ⟨fun h p hp m _ => h p hp m, fun h p hp m => ?_⟩
  by_cases hm : m ∈ P.sentTo (s p).st q
  · exact h p hp m hm
  · rw [List.count_eq_zero_of_not_mem hm]
    exact Nat.zero_le _

instance (q : Fin C.N) : Decidable (Delivered P s q) := decidable_of_iff' _ delivered_iff

theorem Delivered.mem {p q : Fin C.N} {m : μ} (h : Delivered P s q) (hp : C.Honest p)
    (hm : m ∈ P.sentTo (s p).st q) : (p, m) ∈ (s q).rcvd := by
  have h1 := h p hp m
  have h2 := List.count_pos_iff.mpr hm
  exact List.count_pos_iff.mp (by omega)

end
end Async
