import HoneyBadgerBFT.HoneyBadger.Wiring

/-!
# HoneyBadgerBFT: no message is lost

While `_recv` and the loop of a round run, what has arrived for an instance of the round is in its
queue or in that of the round (`Kept`), and what the instance has taken is the front of its queue
(`Taken`).  A loop that has died never comes back, so it is enough that they run at the end.

* `rcvd_of_idle`   an instance whose queues are empty has taken whatever has arrived for it.
-/

namespace HoneyBadger
open Async Trans Party

/-! ## the queues of `run` -/

section
variable {N : ℕ} {M : Type} {B : ℕ} {i : Instance N} {r : ℤ}

/-- what an arrival is to the instance `i` of the round `r` -/
def arrivalIn (r : ℤ) (i : Instance N) (y : Fin N × (ℤ × Packet M)) : Option (Fin N × M) :=
  if y.2.1 = r then pickFor i (y.1, y.2.2) else none

/-- the message that the action brings -/
def Act.message : Act N M → Option (Fin N × (ℤ × Packet M))
  | .receive sender r x => some (sender, (r, x))
  | _ => none

/-- of the messages `l`, in the order of their arrival, none is lost while the loops run -/
structure Kept (p : Party N M) (l : List (Fin N × (ℤ × Packet M))) : Prop where
  ahead : ∀ r, p.round < r ∨ p.main = .top ∧ r = p.round → p.loops r = .unborn
  queued : p.recvThread = .running → ∀ r, p.loops r = .unborn ∨ p.loops r = .running → ∀ i,
    (p.queues r).of i ++ (p.waiting r).filterMap (pickFor i) = l.filterMap (arrivalIn r i)

variable {p p' : Party N M} {l : List (Fin N × (ℤ × Packet M))}

/-- an exception ends a loop -/
theorem broadcastReceiver_dead {sender : Fin N} {x : Packet M} {q : BroadcastReceiverQueues N M}
    {e : Loop} (h : broadcastReceiver sender x q = .inr e) : e ≠ .unborn ∧ e ≠ .running := by
  unfold broadcastReceiver at h
  split at h
  · obtain rfl := Sum.inr.inj h
    exact ⟨Loop.noConfusion, Loop.noConfusion⟩
  · cases h
  all_goals
    split at h
    · obtain rfl := Sum.inr.inj h
      exact ⟨Loop.noConfusion, Loop.noConfusion⟩
    · cases h

/-- the queues are as they were -/
theorem Kept.congr (h : Kept p l)
    (hahead : ∀ r, p'.round < r ∨ p'.main = .top ∧ r = p'.round → p'.loops r = .unborn)
    (hrecv : p'.recvThread = p.recvThread)
    (hloops : ∀ r, p'.loops r = .unborn ∨ p'.loops r = .running →
      p.loops r = .unborn ∨ p.loops r = .running)
    (hq : p'.queues = p.queues) (hw : ∀ r, p'.waiting r = p.waiting r) : Kept p' l where
  ahead := hahead
  queued hr r hl i := by
    rw [hq, hw]
    exact h.queued (hrecv ▸ hr) r (hloops r hl) i

theorem Kept.start (h : Kept p l) (hm : p.main = .top) : Kept (p.start B) l := by
  obtain ⟨hround, hq, hrecv, -, -, hw, hcase⟩ := start_spec B p
  have hahead : ∀ r, (p.start B).round < r ∨ (p.start B).main = .top ∧ r = (p.start B).round →
      p.round < r := by
    intro r hr
    rw [hround] at hr
    refine hr.resolve_right fun e => ?_
    rcases hcase with ⟨hmain, -⟩ | ⟨⟨tx, hmain⟩, -⟩ <;> cases hmain.symm.trans e.1
  rcases hcase with ⟨-, hloops⟩ | ⟨-, hloops⟩
  · refine h.congr (fun r hr => ?_) hrecv (fun r hl => hloops ▸ hl) hq hw
    rw [hloops]
    exact h.ahead r (.inl (hahead r hr))
  · refine h.congr (fun r hr => ?_) hrecv (fun r hl => ?_) hq hw <;> rw [hloops] at *
    · have hlt := hahead r hr
      rw [Function.update_of_ne hlt.ne']
      exact h.ahead r (.inl hlt)
    · by_cases hr : r = p.round
      · exact .inl (h.ahead r (.inr ⟨hm, hr⟩))
      · rwa [Function.update_of_ne hr] at hl

theorem Kept.receive (h : Kept p l) (sender : Fin N) (r : ℤ) (x : Packet M) :
    Kept (p.receive sender r x) (l ++ [(sender, (r, x))]) := by
  have hput : ∀ q, p.waiting r = q → Kept { p with
      perRoundRecv := Function.update p.perRoundRecv r (some (q ++ [(sender, x)])) }
      (l ++ [(sender, (r, x))]) := by
    rintro q rfl
    refine ⟨h.ahead, fun hr r' hl i => ?_⟩
    have hold := h.queued hr r' hl i
    have hnew : [(sender, (r, x))].filterMap (arrivalIn r' i) =
        if r = r' then (pickFor i (sender, x)).toList else [] := by
      unfold arrivalIn
      rw [List.filterMap_cons]
      dsimp only
      split_ifs
      · cases pickFor i (sender, x) <;> rfl
      · rfl
    rw [List.filterMap_append, hnew, ← hold]
    by_cases hrr : r = r'
    · subst hrr
      rw [if_pos rfl]
      simp only [Party.waiting, Function.update_self, Option.getD_some]
      rw [List.filterMap_append, ← List.append_assoc]
      congr 1
    · rw [if_neg hrr, List.append_nil]
      simp only [Party.waiting, Function.update_of_ne (Ne.symm hrr)]
  unfold Party.receive
  split
  · next q hq => exact hput q (by rw [Party.waiting, hq]; rfl)
  · next hq =>
    split
    · exact hput [] (by rw [Party.waiting, hq]; rfl)
    · exact ⟨h.ahead, (fun hr => by cases hr)⟩

theorem Kept.routeOne (h : Kept p l) {x : Fin N × Packet M} {rest : Queue N (Packet M)}
    (hl : p.loops r = .running) (hq : p.perRoundRecv r = some (x :: rest)) :
    Kept (p.routeOne r x rest) l := by
  have hwait : p.waiting r = x :: rest := by rw [Party.waiting, hq]; rfl
  unfold Party.routeOne
  dsimp only
  cases hb : broadcastReceiver x.1 x.2 (p.queues r) with
  | inr e =>
    have he := broadcastReceiver_dead hb
    refine ⟨fun r' hr' => ?_, fun hr r' hl' i => ?_⟩
    · have hold := h.ahead r' hr'
      have hne : r' ≠ r := by
        rintro rfl
        cases hl.symm.trans hold
      exact (Function.update_of_ne hne ..).trans hold
    · have hne : r' ≠ r := by
        rintro rfl
        simp only [Function.update_self] at hl'
        exact hl'.elim he.1 he.2
      simp only [Function.update_of_ne hne] at hl'
      have hold := h.queued hr r' hl' i
      simp only [Party.waiting, Function.update_of_ne hne]
      exact hold
  | inl q =>
    refine ⟨h.ahead, fun hr r' hl' i => ?_⟩
    have hold := h.queued hr r' hl' i
    rw [← hold]
    by_cases hrr : r' = r
    · subst hrr
      rw [hwait]
      simp only [Party.waiting, Function.update_self, Option.getD_some, broadcastReceiver_place hb]
      rw [List.append_assoc, List.filterMap_cons]
      cases pickFor i x <;> rfl
    · simp only [Party.waiting, Function.update_of_ne hrr]

/-- **step lemma** -/
theorem Kept.next (h : Kept p l) {a : Act N M} (hn : p.next B a = some p') :
    Kept p' (l ++ a.message.toList) := by
  obtain ⟨x, hx, rfl⟩ := next_cases hn
  suffices hkept : Kept x (l ++ a.message.toList) from ⟨hkept.ahead, hkept.queued⟩
  cases a with
  | submit tx =>
    obtain rfl := Option.some.inj hx
    show Kept _ (l ++ [])
    rw [List.append_nil]
    exact ⟨h.ahead, h.queued⟩
  | start =>
    simp only [Party.act] at hx
    split at hx
    · next hm =>
      obtain rfl := Option.some.inj hx
      show Kept _ (l ++ [])
      rw [List.append_nil]
      exact h.start hm
    · cases hx
  | finish newTx =>
    simp only [Party.act] at hx
    split at hx
    · obtain rfl := Option.some.inj hx
      show Kept _ (l ++ [])
      rw [List.append_nil]
      refine h.congr (fun r hr => h.ahead r (.inl ?_)) rfl (fun _ hl => hl) rfl fun _ => rfl
      change p.round + 1 < r ∨ _ ∧ r = p.round + 1 at hr
      omega
    · cases hx
  | fail =>
    simp only [Party.act] at hx
    split at hx
    · obtain rfl := Option.some.inj hx
      show Kept _ (l ++ [])
      rw [List.append_nil]
      refine h.congr (fun r hr => h.ahead r (.inl ?_)) rfl (fun _ hl => hl) rfl fun _ => rfl
      exact hr.resolve_right fun e => Main.noConfusion e.1
    · cases hx
  | receive sender r m =>
    simp only [Party.act] at hx
    split at hx
    · obtain rfl := Option.some.inj hx
      exact h.receive sender r m
    · cases hx
  | route r =>
    simp only [Party.act, Party.route] at hx
    split at hx
    · next hl =>
      split at hx
      · next y rest hq =>
        obtain rfl := Option.some.inj hx
        show Kept _ (l ++ [])
        rw [List.append_nil]
        exact h.routeOne hl hq
      · cases hx
    · cases hx

/-- a queue of an instance only grows -/
theorem next_queues {a : Act N M} (h : p.next B a = some p') (r : ℤ) (i : Instance N) :
    (p.queues r).of i <+: (p'.queues r).of i := by
  rcases next_transport h with ⟨hq, -⟩ | ⟨sender, r', m, -, rfl⟩ | ⟨r', y, rest, -, -, -, rfl⟩
  · rw [hq]
  · show _ <+: ((p.receive sender r' m).queues r).of i
    unfold Party.receive
    split
    · exact List.prefix_refl _
    · split <;> exact List.prefix_refl _
  · show _ <+: ((p.routeOne r' y rest).queues r).of i
    unfold Party.routeOne
    dsimp only
    cases hb : broadcastReceiver y.1 y.2 (p.queues r') with
    | inr e => exact List.prefix_refl _
    | inl q =>
      dsimp only
      by_cases hr : r = r'
      · subst hr
        rw [Function.update_self, broadcastReceiver_place hb]
        exact List.prefix_append ..
      · rw [Function.update_of_ne hr]

end

/-! ## the instances -/

variable {C : Committee} {S : Setup C} {pid : Fin C.N} {r : ℤ}

/-- no message is lost, and the instances have taken theirs in the order of the queues -/
structure Lossless (nd : Node C.N S.Obj S.Msg) : Prop where
  kept : Kept nd.st.hb nd.rcvd.reverse
  taken : ∀ r x, nd.st.rounds r = some x → ∀ i, (x.rcvd i).reverse <+: (nd.st.hb.queues r).of i

theorem prefix_concat {α : Type} {l q : List α} {y : α} (h : l <+: q) (hy : q[l.length]? = some y) :
    l ++ [y] <+: q := by
  obtain ⟨t, rfl⟩ := h
  rw [List.getElem?_append_right (le_refl _), Nat.sub_self] at hy
  cases t with
  | nil => cases hy
  | cons z t =>
    obtain rfl := Option.some.inj hy
    exact ⟨t, by rw [List.append_assoc]; rfl⟩

/-- an action of `run` that is no arrival -/
theorem Lossless.run {nd : Node C.N S.Obj S.Msg} (h : Lossless nd) {b : Act C.N S.Data}
    (hb : b.message = none) {hb' : Party C.N S.Data} (hn : nd.st.hb.next S.B b = some hb')
    {rounds : ℤ → Option S.Call}
    (hr : ∀ r x, rounds r = some x → nd.st.rounds r = some x ∨ ∀ i, x.rcvd i = []) :
    Lossless (⟨⟨hb', rounds⟩, nd.rcvd⟩ : Node C.N S.Obj S.Msg) where
  kept := by
    have hkept := h.kept.next hn
    rwa [hb, Option.toList_none, List.append_nil] at hkept
  taken r x hx i := by
    rcases hr r x hx with hold | hnew
    · exact (h.taken r x hold i).trans (next_queues hn r i)
    · rw [hnew i]
      exact List.nil_prefix

/-- a round goes on -/
theorem Lossless.setRound {nd : Node C.N S.Obj S.Msg} (h : Lossless nd) {x : S.Call}
    (hx : ∀ i, (x.rcvd i).reverse <+: (nd.st.hb.queues r).of i) :
    Lossless (⟨nd.st.setRound r x, nd.rcvd⟩ : Node C.N S.Obj S.Msg) where
  kept := h.kept
  taken r' y hy := by
    rcases setRound_rounds hy with ⟨rfl, rfl⟩ | ⟨-, hy⟩
    · exact hx
    · exact h.taken r' y hy

/-- **step lemma** -/
theorem Lossless.act {nd : Node C.N S.Obj S.Msg} (h : Lossless nd) {a : Object.Act C.N S.tpke.p}
    {u : S.Obj} (hs : Object.Step S pid nd.st a u) : Lossless ⟨u, nd.rcvd⟩ := by
  cases hs with
  | outer hab hn hm => exact h.run (by cases hab <;> rfl) hn fun r x hx => .inl hx
  | started hn hm =>
    refine h.run rfl hn fun r x hx => ?_
    rcases setRound_rounds (o := nd.st) hx with ⟨-, rfl⟩ | ⟨-, hx⟩
    · exact .inr fun _ => rfl
    · exact .inl hx
  | @take r i x src m hx hm hl =>
    refine h.setRound fun i' => ?_
    have hold := h.taken r x hx i'
    rw [Round.recv_rcvd]
    by_cases hi : i' = i
    · subst hi
      rw [Function.update_self, List.reverse_cons]
      exact prefix_concat hold (by rwa [List.length_reverse])
    · rwa [Function.update_of_ne hi]
  | inner hx hy =>
    refine h.setRound fun i => ?_
    rw [hy.rcvd]
    exact h.taken _ _ hx i

theorem reached_lossless {nd : Node C.N S.Obj S.Msg} (h : (system S).ReachableAlone pid nd) :
    Lossless nd := by
  refine alone_invariant Lossless ⟨⟨fun _ _ => rfl, fun _ r _ i => ?_⟩, fun _ _ h => by cases h⟩
    (fun src m nd hnd hl => ?_) (fun a nd u hnd hu => hnd.act (Object.act_step hu)) h
  · cases i <;> rfl
  · obtain ⟨hb, hn, he⟩ := Object.receive_eq src m hl
    show Lossless ⟨nd.st.receive S src m, _⟩
    rw [he]
    have hkept := hnd.kept.next hn
    refine ⟨?_, fun r x hx i => (hnd.taken r x hx i).trans (next_queues hn r i)⟩
    rw [List.reverse_cons]
    exact hkept

/-- **an instance that has nothing to take, has taken whatever has arrived for it** -/
theorem Lossless.rcvd_of_idle {nd : Node C.N S.Obj S.Msg} (h : Lossless nd) {x : S.Call}
    (hx : nd.st.rounds r = some x) (hrecv : nd.st.hb.recvThread = .running)
    (hloop : nd.st.hb.loops r = .running) (hroute : nd.st.hb.route r = none) {i : Instance C.N}
    (hi : ((nd.st.hb.queues r).of i)[(x.rcvd i).length]? = none) :
    x.rcvd i = nd.rcvd.filterMap (arrivalIn r i) := by
  have hwait : nd.st.hb.waiting r = [] := by
    unfold Party.route at hroute
    rw [if_pos hloop] at hroute
    unfold Party.waiting
    split at hroute
    · cases hroute
    · next hno =>
      cases hq : nd.st.hb.perRoundRecv r with
      | none => rfl
      | some q =>
        cases q with
        | nil => rfl
        | cons y rest => exact absurd hq (hno y rest)
  have hqueue := h.kept.queued hrecv r (.inr hloop) i
  rw [hwait, List.filterMap_nil, List.append_nil] at hqueue
  have hlen := List.getElem?_eq_none_iff.mp hi
  have hall := (h.taken r x hx i).eq_of_length_le (by rwa [List.length_reverse])
  rw [hqueue, List.filterMap_reverse] at hall
  exact List.reverse_injective hall

end HoneyBadger
