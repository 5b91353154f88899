import HoneyBadgerBFT.HoneyBadger.Party
import HoneyBadgerBFT.HoneyBadgerBlock.Robust

/-!
# HoneyBadgerBFT: the transaction buffer

A transaction goes into a block as a `str` and comes out of it as the bytes of its encoding, and the
filter after a round compares the two: they are never equal, so it removes nothing (`removeNew_eq`).
And a round takes the first transaction of its batch, if there is one or not.

* `remaining`        what the buffer is to be, from the actions so far;
* `buffer_exact`     the steps that keep to it, and the runs of such steps;
* `proposal_stays`   what a block makes of the transaction that a party proposes.
-/

namespace HoneyBadger
open Trans Party

variable {N : ℕ} {M : Type} {B : ℕ} {p p' : Party N M} {a : Act N M}
  {ok : Party N M → Act N M → Prop}

/-- the transaction is, as text, one of the plaintexts of the block -/
def Committed (newTx : List Bytes) (tx : Str) : Prop := ∃ b ∈ newTx, encodeUtf8 tx = some b

instance (newTx : List Bytes) (tx : Str) : Decidable (Committed newTx tx) :=
  inferInstanceAs (Decidable (∃ b ∈ newTx, encodeUtf8 tx = some b))

/-- the buffer without the transactions of the block -/
def withoutCommitted (newTx : List Bytes) (buffer : List Str) : List Str :=
  buffer.filter fun tx => decide (¬ Committed newTx tx)

/-- what the code leaves in the buffer after the action -/
def Act.leaves (buffer : List Str) : Act N M → List Str
  | .submit tx => buffer ++ [tx]
  | _ => buffer

/-- what is to be in the buffer after the action -/
def Act.onBuffer (buffer : List Str) : Act N M → List Str
  | .submit tx => buffer ++ [tx]
  | .finish newTx => withoutCommitted newTx buffer
  | _ => buffer

/-- what is to be in the buffer after the actions `l`: the transactions submitted, in order, without
those that a block since then has committed -/
def remaining (l : List (Act N M)) : List Str := l.foldl Act.onBuffer []

/-- a round has a transaction to propose, and a block commits none that is in the buffer -/
def Undisturbed (B : ℕ) (p : Party N M) : Act N M → Prop
  | .start => p.transactionBuffer.take B ≠ []
  | .finish newTx => ∀ tx ∈ p.transactionBuffer, ¬ Committed newTx tx
  | _ => True

instance (B : ℕ) (p : Party N M) : DecidablePred (Undisturbed B p)
  | .start => inferInstanceAs (Decidable (_ ≠ []))
  | .finish _ => inferInstanceAs (Decidable (∀ _ ∈ _, _))
  | .submit _ => isTrue trivial
  | .fail => isTrue trivial
  | .receive _ _ _ => isTrue trivial
  | .route _ => isTrue trivial

/-! ## one step -/

/-- **the filter removes nothing** -/
theorem removeNew_eq (newTx : List Bytes) (buffer : List Str) : removeNew newTx buffer = buffer := by
  refine List.filter_eq_self.mpr fun tx _ => decide_eq_true fun hmem => ?_
  obtain ⟨b, -, hb⟩ := List.mem_map.mp hmem
  cases hb

theorem eq_withoutCommitted_iff {newTx : List Bytes} {buffer : List Str} :
    buffer = withoutCommitted newTx buffer ↔ ∀ tx ∈ buffer, ¬ Committed newTx tx := by
  rw [eq_comm, withoutCommitted, List.filter_eq_self]
  exact forall₂_congr fun tx _ => decide_eq_true_iff

theorem next_cases (h : p.next B a = some p') :
    ∃ x, p.act B a = some x ∧ p' = { x with trace := p.trace ++ [a] } := by
  obtain ⟨x, hx, he⟩ := Option.map_eq_some_iff.mp h
  exact ⟨x, hx, he.symm⟩

theorem start_buffer (B : ℕ) (p : Party N M) :
    (p.start B).transactionBuffer = p.transactionBuffer := by
  unfold start
  cases p.perRoundRecv p.round <;> dsimp only <;> split <;> rfl

theorem start_main (B : ℕ) (p : Party N M) :
    (p.start B).main ≠ .indexError ↔ p.transactionBuffer.take B ≠ [] := by
  unfold start
  cases p.perRoundRecv p.round <;> dsimp only <;> split
  all_goals
    next h => simp [h]

theorem finish_main (newTx : List Bytes) (p : Party N M) : (p.finish newTx).main ≠ .indexError := by
  unfold finish
  dsimp only
  split <;> exact Main.noConfusion

theorem receive_main (sender : Fin N) (r : ℤ) (x : Packet M) (p : Party N M) :
    (p.receive sender r x).transactionBuffer = p.transactionBuffer ∧
      (p.receive sender r x).main = p.main := by
  unfold receive
  split
  · exact ⟨rfl, rfl⟩
  · split <;> exact ⟨rfl, rfl⟩

theorem route_main {r : ℤ} {x : Party N M} (h : p.route r = some x) :
    x.transactionBuffer = p.transactionBuffer ∧ x.main = p.main := by
  unfold route at h
  split at h
  · split at h
    · obtain rfl := Option.some.inj h
      unfold routeOne
      dsimp only
      split <;> exact ⟨rfl, rfl⟩
    · cases h
  · cases h

/-- **step lemma**: transactions are only ever added, and a round that starts without one ends the
main loop -/
theorem act_buffer {x : Party N M} (h : p.act B a = some x) :
    x.transactionBuffer = a.leaves p.transactionBuffer ∧
      (x.main = .indexError → p.main = .indexError ∨ a = .start ∧ p.transactionBuffer.take B = []) := by
  cases a with
  | submit tx =>
    obtain rfl := Option.some.inj h
    exact ⟨rfl, .inl⟩
  | start =>
    simp only [Party.act] at h
    split at h
    · obtain rfl := Option.some.inj h
      refine ⟨start_buffer B p, fun he => .inr ⟨rfl, ?_⟩⟩
      by_contra hne
      exact (start_main B p).mpr hne he
    · cases h
  | finish newTx =>
    simp only [Party.act] at h
    split at h
    · obtain rfl := Option.some.inj h
      exact ⟨removeNew_eq newTx p.transactionBuffer, fun he => absurd he (finish_main newTx p)⟩
    · cases h
  | fail =>
    simp only [Party.act] at h
    split at h
    · obtain rfl := Option.some.inj h
      exact ⟨rfl, Main.noConfusion⟩
    · cases h
  | receive sender r y =>
    simp only [Party.act] at h
    split at h
    · obtain rfl := Option.some.inj h
      obtain ⟨hb, hm⟩ := receive_main sender r y p
      exact ⟨hb, fun he => .inl (hm ▸ he)⟩
    · cases h
  | route r =>
    obtain ⟨hb, hm⟩ := route_main h
    exact ⟨hb, fun he => .inl (hm ▸ he)⟩

/-- an action that leaves the buffer as it is to be -/
theorem leaves_eq {buffer : List Str}
    (h : ∀ newTx, a = .finish newTx → ∀ tx ∈ buffer, ¬ Committed newTx tx) :
    a.leaves buffer = a.onBuffer buffer := by
  cases a with
  | finish newTx => exact eq_withoutCommitted_iff.mpr (h newTx rfl)
  | submit tx => rfl
  | start => rfl
  | fail => rfl
  | receive sender r y => rfl
  | route r => rfl

/-! ## the runs -/

/-- **run lemma**: in a run of undisturbed steps the buffer is what it is to be -/
theorem undisturbed_buffer (h : Reached B (Undisturbed B) p) :
    p.main ≠ .indexError ∧ p.transactionBuffer = remaining p.trace := by
  refine Reach.invariant (fun p : Party N M => p.main ≠ .indexError ∧
    p.transactionBuffer = remaining p.trace) (fun p a p' hp hok hn => ?_) h ⟨Main.noConfusion, rfl⟩
  obtain ⟨x, hx, rfl⟩ := next_cases hn
  obtain ⟨hb, hm⟩ := act_buffer hx
  have htrace : remaining (p.trace ++ [a]) = a.onBuffer (remaining p.trace) := by
    rw [remaining, List.foldl_append]
    rfl
  refine ⟨fun he => ?_, ?_⟩
  · rcases hm he with h0 | ⟨rfl, h0⟩
    · exact hp.1 h0
    · exact hok h0
  · show x.transactionBuffer = remaining (p.trace ++ [a])
    rw [htrace, hb, ← hp.2]
    refine leaves_eq fun newTx e => ?_
    subst e
    exact hok

/-- **the buffer**: the filter after a round leaves what is to be left if and only if the block has
none of the buffered transactions, a round starts if and only if there is one, and a run of such
steps loses no transaction, keeps no committed one and never ends in an `IndexError` -/
theorem buffer_exact (N B : ℕ) (M : Type) :
    (∀ ok (p p' : Party N M) newTx, Reached B ok p → p.next B (.finish newTx) = some p' →
      (p'.transactionBuffer = withoutCommitted newTx p.transactionBuffer ↔
        ∀ tx ∈ p.transactionBuffer, ¬ Committed newTx tx)) ∧
    (∀ ok (p p' : Party N M), Reached B ok p → p.next B .start = some p' →
      (p'.main ≠ .indexError ↔ p.transactionBuffer.take B ≠ [])) ∧
    ∀ p : Party N M, Reached B (Undisturbed B) p →
      p.main ≠ .indexError ∧ p.transactionBuffer = remaining p.trace := by
  refine ⟨fun _ p p' newTx _ h => ?_, fun _ p p' _ h => ?_, fun p h => undisturbed_buffer h⟩
  · obtain ⟨x, hx, rfl⟩ := next_cases h
    show x.transactionBuffer = _ ↔ _
    rw [(act_buffer hx).1]
    exact eq_withoutCommitted_iff
  · obtain ⟨x, hx, rfl⟩ := next_cases h
    simp only [Party.act] at hx
    split at hx
    · obtain rfl := Option.some.inj hx
      exact start_main B p
    · cases hx

theorem buffer_exact_four : ∃ p : Party 4 Unit, Reached 1 (Undisturbed 1) p ∧ p.round = 1 ∧
    p.transactionBuffer = [[0x61], [0x62]] ∧ p.transactionBuffer = remaining p.trace := by
  obtain ⟨p, hp, hgood⟩ := exists_exec 1 (Undisturbed 1)
    [.submit [0x61], .start, .submit [0x62], .finish [[0x63]]]
    (fun p : Party 4 Unit => decide (p.round = 1 ∧ p.transactionBuffer = [[0x61], [0x62]]))
    (by decide)
  obtain ⟨hr, hb⟩ := of_decide_eq_true hgood
  exact ⟨p, hp, hr, hb, ((buffer_exact 4 1 Unit).2.2 p hp).2⟩

/-- the only transaction is committed and stays, and without a transaction the round does not start -/
theorem committed_stays :
    (¬ ∀ (p p' : Party 4 Unit) newTx, Reached 1 (fun _ _ => True) p →
      p.next 1 (.finish newTx) = some p' →
        p'.transactionBuffer = withoutCommitted newTx p.transactionBuffer) ∧
    ¬ ∀ p p' : Party 4 Unit, Reached 1 (fun _ _ => True) p → p.next 1 .start = some p' →
      p'.main ≠ .indexError := by
  constructor <;> intro hclaim
  · obtain ⟨p, p', hp, hp', hb, hb'⟩ := exists_exec_step 1 (fun _ _ => True)
      [.submit [0x61], .start] (.finish [[0x61]])
      (fun p : Party 4 Unit => p.transactionBuffer = [[0x61]])
      (fun p' : Party 4 Unit => p'.transactionBuffer = [[0x61]]) (by decide)
    have := hclaim p p' [[0x61]] hp hp'
    rw [hb, hb'] at this
    exact absurd this (by decide)
  · exact hclaim Party.init _ (Reach.refl _) rfl rfl

/-! ## the block -/

theorem start_inRound {tx : Str} (h : (p.start B).main = .inRound tx) :
    tx ∈ p.transactionBuffer := by
  unfold start at h
  cases hq : p.perRoundRecv p.round with
  | none =>
    rw [hq] at h
    dsimp only at h
    split at h
    · cases h
    · next hb =>
      cases h
      exact List.mem_of_mem_take (hb ▸ List.mem_cons_self)
  | some q =>
    rw [hq] at h
    dsimp only at h
    split at h
    · cases h
    · next hb =>
      cases h
      exact List.mem_of_mem_take (hb ▸ List.mem_cons_self)

theorem leaves_subset (buffer : List Str) : buffer ⊆ a.leaves buffer := by
  cases a with
  | submit tx => exact List.subset_append_left _ _
  | _ => exact List.Subset.refl _

theorem act_inRound {x : Party N M} (h : p.act B a = some x) {tx : Str}
    (hx : x.main = .inRound tx) : p.main = .inRound tx ∨ tx ∈ p.transactionBuffer := by
  cases a with
  | submit tx =>
    obtain rfl := Option.some.inj h
    exact .inl hx
  | start =>
    simp only [Party.act] at h
    split at h
    · obtain rfl := Option.some.inj h
      exact .inr (start_inRound hx)
    · cases h
  | finish newTx =>
    simp only [Party.act] at h
    split at h
    · obtain rfl := Option.some.inj h
      unfold finish at hx
      dsimp only at hx
      split at hx <;> cases hx
    · cases h
  | fail =>
    simp only [Party.act] at h
    split at h
    · obtain rfl := Option.some.inj h
      cases hx
    · cases h
  | receive sender r y =>
    simp only [Party.act] at h
    split at h
    · obtain rfl := Option.some.inj h
      exact .inl ((receive_main sender r y p).2 ▸ hx)
    · cases h
  | route r => exact .inl ((route_main h).2 ▸ hx)

/-- the transaction that a round proposes is in the buffer, and stays there -/
theorem proposal_in_buffer (h : Reached B ok p) {tx : Str} (hp : p.main = .inRound tx) :
    tx ∈ p.transactionBuffer := by
  refine Reach.invariant (fun p : Party N M => ∀ tx, p.main = .inRound tx →
    tx ∈ p.transactionBuffer) (fun p a p' hI _ hn tx hx => ?_) h (fun _ e => by cases e) tx hp
  obtain ⟨x, hact, rfl⟩ := next_cases hn
  show tx ∈ x.transactionBuffer
  rw [(act_buffer hact).1]
  refine leaves_subset _ ?_
  exact (act_inRound hact hx).elim (hI tx) id

/-- **what a party proposes is never removed**: when its proposal `v` is an entry of the tuple from
the common subset and the block returns, its transaction is committed and still in the buffer -/
theorem proposal_stays {C : Committee} {prop : Fin C.N → Str} {vall : List (Option Bytes)}
    {ds : List Bytes} (hds : (Block.honestPlaintexts C prop vall).Sublist ds) {i : Fin C.N}
    (hi : C.Honest i) {v b : Bytes} (hv : vall[i.val]? = some (some v))
    (hb : encodeUtf8 (prop i) = some b) (h : Reached B ok p) (hp : p.main = .inRound (prop i))
    (hn : p.next B (.finish ds) = some p') :
    Committed ds (prop i) ∧ prop i ∈ p'.transactionBuffer := by
  refine ⟨⟨b, hds.subset (List.mem_filterMap.mpr ⟨i, List.mem_finRange i, ?_⟩), hb⟩, ?_⟩
  · rw [if_pos hi, hv]
    exact hb
  · obtain ⟨x, hx, rfl⟩ := next_cases hn
    show prop i ∈ x.transactionBuffer
    rw [(act_buffer hx).1]
    exact leaves_subset _ (proposal_in_buffer h hp)

end HoneyBadger
