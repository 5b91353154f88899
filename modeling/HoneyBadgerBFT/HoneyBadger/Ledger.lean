import HoneyBadgerBFT.HoneyBadger.Subprotocols
import HoneyBadgerBFT.HoneyBadgerBlock.Safety

/-!
# HoneyBadgerBFT: the ledgers of a committee

The blocks of an object are what its calls of `_run_round` have returned (`Recorded`).  Two honest
calls of one round have the same tuple from the common subset (`vall_unique`), and so the same
plaintexts.

* `ledger_prefix`   of the ledgers of two honest parties one goes on where the other one ends.

Every call proposes one transaction, the first of the buffer, and `remove` never takes it out, so it
is the first that was ever submitted (`reached_proposes`).
-/

namespace HoneyBadger
open Async Trans

variable {C : Committee} {S : Setup C} {r : ℤ} {pid : Fin C.N}

/-! ## what an object records -/

/-- the trace after an action, as one of its lists -/
theorem next_filterMap {N B : ℕ} {M β : Type} {p p' : Party N M} {b : Act N M}
    (h : p.next B b = some p') (f : Act N M → Option β) :
    p'.trace.filterMap f = p.trace.filterMap f ++ (f b).toList := by
  obtain ⟨x, hx, rfl⟩ := next_cases h
  dsimp only
  rw [List.filterMap_append, List.filterMap_cons]
  cases f b <;> rfl

/-- the blocks are what the rounds before the current one have returned -/
structure Recorded (pid : Fin C.N) (o : S.Obj) : Prop where
  length : (o.blocks.length : ℤ) = o.hb.round
  returned : ∀ (k : ℕ) ds, o.blocks[k]? = some ds →
    ∃ x, o.rounds k = some x ∧ x.outcome S pid = .returned ds

/-- a call that goes on keeps its result -/
theorem Recorded.setRound {o : S.Obj} (h : Recorded pid o) {x y : S.Call}
    (hx : o.rounds r = some x)
    (hy : ∀ ds, x.outcome S pid = .returned ds → y.outcome S pid = .returned ds) :
    Recorded pid (o.setRound r y) where
  length := h.length
  returned k ds hds := by
    obtain ⟨z, hz, hret⟩ := h.returned k ds hds
    by_cases hk : (k : ℤ) = r
    · subst hk
      obtain rfl := Option.some.inj (hx.symm.trans hz)
      exact ⟨y, Function.update_self .., hy ds hret⟩
    · exact ⟨z, (Function.update_of_ne hk ..).trans hz, hret⟩

/-- an action of `run` that ends no round -/
theorem Recorded.run {o u : S.Obj} (h : Recorded pid o) {b : Act C.N S.Data}
    (hn : o.hb.next S.B b = some u.hb) (hb : b.block = none) (hround : u.hb.round = o.hb.round)
    (hu : ∀ r x, o.rounds r = some x → u.rounds r = some x) : Recorded pid u := by
  have hblocks : u.blocks = o.blocks := by
    unfold Object.blocks
    rw [next_filterMap hn, hb]
    exact List.append_nil _
  refine ⟨by rw [hblocks, hround, h.length], fun k ds hds => ?_⟩
  rw [hblocks] at hds
  obtain ⟨x, hx, hret⟩ := h.returned k ds hds
  exact ⟨x, hu k x hx, hret⟩

/-- `_run_round` has returned `newTx` -/
theorem Recorded.finish {o : S.Obj} (h : Recorded pid o) {newTx : List Bytes} {x : S.Call}
    {hb : Party C.N S.Data} (hn : o.hb.next S.B (.finish newTx) = some hb)
    (hx : o.rounds o.hb.round = some x) (hret : x.outcome S pid = .returned newTx) :
    Recorded pid { o with hb := hb } := by
  have hblocks : Object.blocks ({ o with hb := hb } : S.Obj) = o.blocks ++ [newTx] := by
    unfold Object.blocks
    exact next_filterMap hn Act.block
  obtain ⟨-, hround, -⟩ := next_main hn
  have hlen := h.length
  refine ⟨?_, fun k ds hds => ?_⟩
  · rw [hblocks, List.length_append, List.length_singleton]
    dsimp only
    omega
  · rw [hblocks] at hds
    rcases Nat.lt_or_ge k o.blocks.length with hk | hk
    · rw [List.getElem?_append_left hk] at hds
      exact h.returned k ds hds
    · rw [List.getElem?_append_right hk] at hds
      obtain ⟨hlt, rfl⟩ := List.getElem?_eq_some_iff.mp hds
      have hzero : k - o.blocks.length = 0 := by
        rw [List.length_singleton] at hlt
        omega
      have hk' : (k : ℤ) = o.hb.round := by omega
      refine ⟨x, hk' ▸ hx, ?_⟩
      simpa [hzero] using hret

/-- **step lemma** -/
theorem Recorded.act {o u : S.Obj} (h : Recorded pid o) (ho : Ordered o)
    {a : Object.Act C.N S.tpke.p} (hs : Object.Step S pid o a u) : Recorded pid u := by
  cases hs with
  | @outer a b hb hab hn hm =>
    have hmain := next_main hn
    cases hab with
    | submit tx => exact h.run (u := { o with hb := hb }) hn rfl hmain.1 fun _ _ h => h
    | start key rnd iv => exact h.run (u := { o with hb := hb }) hn rfl hmain.2.1 fun _ _ h => h
    | finish hx hret => exact h.finish hn hx hret
    | fail hx hret => exact h.run (u := { o with hb := hb }) hn rfl hmain.2.1 fun _ _ h => h
    | route r => exact h.run (u := { o with hb := hb }) hn rfl hmain.1 fun _ _ h => h
  | @started key rnd iv tx hb hn hm =>
    obtain ⟨htop, hround, -⟩ := next_main hn
    refine h.run hn rfl hround fun r x hx => (Function.update_of_ne (fun e => ?_) ..).trans hx
    rw [e, hround, ho.top htop] at hx
    cases hx
  | take hx hm hl => exact h.setRound hx fun ds => Round.recv_outcome hl _ _
  | inner hx hy => exact h.setRound hx fun ds => Round.outcome_later hy.later (congrFun hy.rcvd _)

/-- **what is in the ledger, a call has returned** -/
theorem reached_recorded {nd : Node C.N S.Obj S.Msg} (h : (system S).ReachableAlone pid nd) :
    Recorded pid nd.st := by
  refine (alone_invariant (fun nd : Node C.N S.Obj S.Msg => Ordered nd.st ∧ Recorded pid nd.st)
    ?_ ?_ ?_ h).2
  · exact ⟨reached_ordered (Reach.refl _), rfl, fun _ _ h => by cases h⟩
  · rintro src m nd ⟨ho, hrec⟩ hl
    obtain ⟨hb, hn, he⟩ := Object.receive_eq src m hl
    show Ordered (nd.st.receive S src m) ∧ Recorded pid (nd.st.receive S src m)
    rw [he]
    exact ⟨ho.run hn (fun h => by cases h),
      hrec.run (u := { nd.st with hb := hb }) hn rfl (next_main hn).1 fun _ _ h => h⟩
  · rintro a nd u ⟨ho, hrec⟩ hu
    have hs := Object.act_step hu
    exact ⟨ho.act hs, hrec.act ho hs⟩

/-! ## the same block -/

section
variable {s : State S} (h : Running S s) {p q : Fin C.N} (hp : C.Honest p) (hq : C.Honest q)
include h hp hq

/-- **two honest calls of a round have the same tuple from the common subset** -/
theorem vall_unique (hc : NoCollision S r s) {x y : S.Call} (hx : (s p).st.rounds r = some x)
    (hy : (s q).st.rounds r = some y) {l l' : List (Option Bytes)} (hl : x.vall = some l)
    (hl' : y.vall = some l') : l = l' := by
  obtain ⟨values, hm, rfl⟩ := (reached_wired (reach_alone h p) r x hx).vall l hl
  obtain ⟨values', hm', rfl⟩ := (reached_wired (reach_alone h q) r y hy).vall l' hl'
  have hacs := acs_reached h hc
  have hret : ((acsSlot S r).net s p).st.main = .returned values := (net_some hx).symm ▸ hm
  have hret' : ((acsSlot S r).net s q).st.main = .returned values' := (net_some hy).symm ▸ hm'
  have hsame : values = values' := by
    funext j
    refine Option.ext fun m => ?_
    rw [ACS.entry_iff hacs hp hret, ACS.entry_iff hacs hq hret']
  rw [hsame]

/-- what two honest calls of a round return, is the same -/
theorem outcome_unique (hc : NoCollision S r s) {x y : S.Call} (hx : (s p).st.rounds r = some x)
    (hy : (s q).st.rounds r = some y) {ds ds' : List Bytes} (hd : x.outcome S p = .returned ds)
    (hd' : y.outcome S q = .returned ds') : ds = ds' := by
  obtain ⟨l, -, hl, hret⟩ := Round.outcome_returned.mp hd
  obtain ⟨l', -, hl', hret'⟩ := Round.outcome_returned.mp hd'
  obtain rfl := vall_unique h hp hq hc hx hy hl hl'
  have hplain := Block.plaintexts_of_returned S.tpke.lt S.tpke.dealt hret
  have hplain' := Block.plaintexts_of_returned S.tpke.lt S.tpke.dealt hret'
  exact Option.some.inj (hplain.symm.trans hplain')

end

/-- two lists that agree where both go -/
theorem prefix_of_agree {α : Type} {l l' : List α}
    (h : ∀ (k : ℕ) x x', l[k]? = some x → l'[k]? = some x' → x = x') : l <+: l' ∨ l' <+: l := by
  have hle : ∀ {l l' : List α}, (∀ (k : ℕ) x x', l[k]? = some x → l'[k]? = some x' → x = x') →
      l.length ≤ l'.length → l <+: l' := by
    intro l l' h hlen
    refine List.prefix_iff_getElem?.mpr fun k hk => ?_
    rw [List.getElem?_eq_getElem (hk.trans_le hlen), Option.some.injEq]
    exact (h k _ _ (List.getElem?_eq_getElem hk)
      (List.getElem?_eq_getElem (hk.trans_le hlen))).symm
  rcases Nat.le_total l.length l'.length with hlen | hlen
  · exact .inl (hle h hlen)
  · exact .inr (hle (fun k x x' hx hx' => (h k x' x hx' hx).symm) hlen)

/-- **one ledger**: of the blocks of two honest parties one list goes on where the other one ends,
unless two strings that the broadcasts of a round have hashed collide -/
theorem ledger_prefix (C : Committee) (S : Setup C) (s : State S) (h : Running S s)
    (hc : ∀ r, NoCollision S r s) (p q : Fin C.N) (hp : C.Honest p) (hq : C.Honest q) :
    (s p).st.blocks <+: (s q).st.blocks ∨ (s q).st.blocks <+: (s p).st.blocks := by
  refine prefix_of_agree fun k ds ds' hds hds' => ?_
  obtain ⟨x, hx, hret⟩ := (reached_recorded (reach_alone h p)).returned k ds hds
  obtain ⟨y, hy, hret'⟩ := (reached_recorded (reach_alone h q)).returned k ds' hds'
  exact outcome_unique h hp hq (hc k) hx hy hret hret'

theorem ledger_prefix_four :
    ((four.last 1).st.blocks = [four.block] ∧ (four.last 2).st.blocks = [four.block]) ∧
    ((four.last 1).st.blocks <+: (four.last 2).st.blocks ∨
      (four.last 2).st.blocks <+: (four.last 1).st.blocks) :=
  ⟨⟨(four.evaluated.2.1 1 (.inl rfl)).1, (four.evaluated.2.1 2 (.inr rfl)).1⟩,
    ledger_prefix Committee.four four.setup four.last four.running four.noCollision 1 2 (by decide)
      (by decide)⟩

end HoneyBadger
