import HoneyBadgerBFT.HoneyBadger.Run

/-!
# HoneyBadgerBFT: the messages that wait for an instance

A message for an instance waits twice, in the queue of its round and in its own queue.
`Party.inbox r i k` has both, without the first `k` messages of the own queue, which the instance has
taken.

* `next_inbox`   a step of `run` makes no message: what waits after it waited before, or arrives.

A packet with a negative index goes where Python's indexing puts it (`place`), and one that ends a loop
takes the messages behind it along.
-/

namespace HoneyBadger
open Trans Party

variable {N : ℕ} {M : Type} {B : ℕ} {i : Instance N}

def Party.inbox (p : Party N M) (r : ℤ) (i : Instance N) (k : ℕ) : Queue N M :=
  ((p.queues r).of i).drop k ++ (p.waiting r).filterMap (pickFor i)

/-- what the action brings to the instance `i` of the round `r` -/
def Act.arrival (r : ℤ) (i : Instance N) : Act N M → Option (Fin N × M)
  | .receive sender r' x => if r' = r then pickFor i (sender, x) else none
  | _ => none

/-! ## one step -/

/-- the messages after the first `k`, when one is put behind them -/
theorem drop_concat {α : Type} (l : List α) (o : Option α) (k : ℕ) :
    ((l ++ o.toList).drop k).Subperm (o.toList ++ l.drop k) := by
  rw [List.drop_append]
  exact (((List.drop_sublist _ _).append_left _).subperm).trans List.perm_append_comm.subperm

theorem routeOne_inbox {p : Party N M} {r : ℤ} {x : Fin N × Packet M} {rest : Queue N (Packet M)}
    (h : p.perRoundRecv r = some (x :: rest)) (r' : ℤ) (k : ℕ) :
    ((p.routeOne r x rest).inbox r' i k).Subperm (p.inbox r' i k) := by
  have hwait : p.waiting r = x :: rest := by rw [Party.waiting, h]; rfl
  unfold routeOne
  dsimp only
  cases hb : broadcastReceiver x.1 x.2 (p.queues r) with
  | inr e =>
    by_cases hr : r' = r
    · subst hr
      simp only [Party.inbox, Party.waiting, Function.update_self, Option.getD_some, h]
      refine List.Sublist.subperm (List.Sublist.append_left ?_ _)
      exact (List.sublist_cons_self x rest).filterMap _
    · simp only [Party.inbox, Party.waiting, Function.update_of_ne hr]
      exact List.Subperm.refl _
  | inl q =>
    by_cases hr : r' = r
    · subst hr
      simp only [Party.inbox, Party.waiting, Function.update_self, Option.getD_some, h,
        broadcastReceiver_place hb]
      refine ((List.subperm_append_right _).mpr (drop_concat _ _ k)).trans (List.Perm.subperm ?_)
      rw [List.append_assoc]
      refine List.perm_append_comm.trans ?_
      rw [List.append_assoc]
      refine (List.Perm.refl _).append ?_
      rw [List.filterMap_cons]
      cases pickFor i x with
      | none => exact List.append_nil _ ▸ List.Perm.refl _
      | some y => exact List.perm_append_singleton y _
    · simp only [Party.inbox, Party.waiting, Function.update_of_ne hr]
      exact List.Subperm.refl _

theorem receive_inbox {p : Party N M} (sender : Fin N) (r : ℤ) (x : Packet M) (r' : ℤ) (k : ℕ) :
    ((p.receive sender r x).inbox r' i k).Subperm
      ((if r = r' then pickFor i (sender, x) else none).toList ++ p.inbox r' i k) := by
  have hput : ∀ q, p.waiting r = q →
      ({ p with perRoundRecv :=
        Function.update p.perRoundRecv r (some (q ++ [(sender, x)])) }.inbox r' i k).Subperm
        ((if r = r' then pickFor i (sender, x) else none).toList ++ p.inbox r' i k) := by
    rintro q rfl
    by_cases hr : r' = r
    · subst hr
      rw [if_pos rfl]
      simp only [Party.inbox, Party.waiting, Function.update_self, Option.getD_some]
      rw [List.filterMap_append, ← List.append_assoc]
      refine List.Perm.subperm (List.perm_append_comm.trans (List.Perm.of_eq ?_))
      congr 1
    · rw [if_neg (Ne.symm hr)]
      simp only [Party.inbox, Party.waiting, Function.update_of_ne hr]
      exact List.Subperm.refl _
  unfold Party.receive
  split
  · next q hq => exact hput q (by rw [Party.waiting, hq]; rfl)
  · next hq =>
    split
    · exact hput [] (by rw [Party.waiting, hq]; rfl)
    · exact (List.sublist_append_right _ _).subperm

/-- everything that a step of `run` can do to the queues -/
theorem next_transport {p p' : Party N M} {a : Act N M} (h : p.next B a = some p') :
    (p'.queues = p.queues ∧ ∀ r, p'.waiting r = p.waiting r) ∨
    (∃ sender r x, a = .receive sender r x ∧
      p' = { p.receive sender r x with trace := p.trace ++ [a] }) ∨
    ∃ r y rest, a = .route r ∧ p.loops r = .running ∧ p.perRoundRecv r = some (y :: rest) ∧
      p' = { p.routeOne r y rest with trace := p.trace ++ [a] } := by
  obtain ⟨x, hx, rfl⟩ := next_cases h
  cases a with
  | submit tx =>
    obtain rfl := Option.some.inj hx
    exact .inl ⟨rfl, fun _ => rfl⟩
  | start =>
    simp only [Party.act] at hx
    split at hx
    · obtain rfl := Option.some.inj hx
      obtain ⟨-, hq, -, -, -, hw, -⟩ := start_spec B p
      exact .inl ⟨hq, hw⟩
    · cases hx
  | finish newTx =>
    simp only [Party.act] at hx
    split at hx
    · obtain rfl := Option.some.inj hx
      exact .inl ⟨rfl, fun _ => rfl⟩
    · cases hx
  | fail =>
    simp only [Party.act] at hx
    split at hx
    · obtain rfl := Option.some.inj hx
      exact .inl ⟨rfl, fun _ => rfl⟩
    · cases hx
  | receive sender r m =>
    simp only [Party.act] at hx
    split at hx
    · obtain rfl := Option.some.inj hx
      exact .inr (.inl ⟨sender, r, m, rfl, rfl⟩)
    · cases hx
  | route r =>
    simp only [Party.act, Party.route] at hx
    split at hx
    · next hl =>
      split at hx
      · next y rest hq =>
        obtain rfl := Option.some.inj hx
        exact .inr (.inr ⟨r, y, rest, rfl, hl, hq, rfl⟩)
      · cases hx
    · cases hx

/-- **a step of `run` makes no message** -/
theorem next_inbox {p p' : Party N M} {a : Act N M} (h : p.next B a = some p') (r : ℤ) (k : ℕ) :
    (p'.inbox r i k).Subperm ((a.arrival r i).toList ++ p.inbox r i k) := by
  rcases next_transport h with ⟨hq, hw⟩ | ⟨sender, r', m, rfl, rfl⟩ | ⟨r', y, rest, rfl, -, hq, rfl⟩
  · have hsame : p'.inbox r i k = p.inbox r i k := by
      unfold Party.inbox
      rw [hq, hw]
    rw [hsame]
    exact (List.sublist_append_right _ _).subperm
  · exact receive_inbox sender r' m r k
  · exact routeOne_inbox hq r k

end HoneyBadger
