import HoneyBadgerBFT.HoneyBadger.Steps

/-!
# HoneyBadgerBFT: every sub-protocol is a run of its own

A slot of the round `r`, seen from a whole object, is a `Component`: before the round has been
started it is in its initial state, and the packets for it wait in the queues of the round.

* `Slot.component_sound`   the object runs the code of the slot, on the messages that it gets;
* `Slot.reach`             in every run of the committee the slots of the parties do a run of their
                           own protocol.
-/

namespace HoneyBadger
open Async

variable {C : Committee} {S : Setup C} {r : ℤ}

namespace Slot
variable {τ ν β : Type} (K : Slot S r τ ν β)

/-- how many messages the slot has taken from its queue -/
def count (o : S.Obj) : ℕ :=
  match o.rounds r with
  | some x => (x.rcvd K.inst).length
  | none => 0

/-- what happens to the slot when the object does an action -/
def happens (pid : Fin C.N) (a : Object.Act C.N S.tpke.p) (o : S.Obj) :
    Option (Occurrence C.N ν β) :=
  match a with
  | .inner r' a =>
    if r' = r then (o.rounds r).bind fun x => (K.occurs pid a x).map .act else none
  | .take r' i =>
    if r' = r ∧ i = K.inst then
      (((o.hb.queues r).of K.inst)[K.count o]?.bind K.entry).map fun y => .receive y.1 y.2
    else none
  | _ => none

/-- the slot in an object -/
def component : Component C.N S.Obj S.Msg (Object.Act C.N S.tpke.p) τ ν β where
  view p o :=
    match o.rounds r with
    | some x => K.view x
    | none => ⟨K.code.init p, []⟩
  waiting o := (o.hb.inbox r K.inst (K.count o)).filterMap K.entry
  pick m := if m.1 = r then K.pick m.2 else none
  occurs := K.happens

end Slot

/-! ## one object -/

section
variable {τ ν β : Type} {K : Slot S r τ ν β} {pid : Fin C.N} {o : S.Obj}

theorem component_view {x : S.Call} (hx : o.rounds r = some x) :
    K.component.view pid o = K.view x := by
  show (match o.rounds r with
    | some x => K.view x
    | none => (⟨K.code.init pid, []⟩ : Node C.N τ ν)) = _
  rw [hx]

theorem component_view_none (hx : o.rounds r = none) :
    K.component.view pid o = ⟨K.code.init pid, []⟩ := by
  show (match o.rounds r with
    | some x => K.view x
    | none => (⟨K.code.init pid, []⟩ : Node C.N τ ν)) = _
  rw [hx]

theorem count_some {x : S.Call} (hx : o.rounds r = some x) :
    K.count o = (x.rcvd K.inst).length := by
  unfold Slot.count
  rw [hx]

/-- what the slot sees of an object, is in the round `r` -/
theorem component_congr (pid : Fin C.N) {u : S.Obj} (h : u.rounds r = o.rounds r) :
    K.component.view pid u = K.component.view pid o ∧ K.count u = K.count o := by
  unfold Slot.count
  cases hx : o.rounds r with
  | none =>
    rw [hx] at h
    rw [component_view_none hx, component_view_none h, h]
    exact ⟨rfl, rfl⟩
  | some x =>
    rw [hx] at h
    rw [component_view hx, component_view h, h]
    exact ⟨rfl, rfl⟩

theorem Slot.entry_filterMap {l l' : Queue C.N S.Data} (h : l.Subperm l') :
    (l.filterMap K.entry).Subperm (l'.filterMap K.entry) := by
  obtain ⟨l₁, hperm, hsub⟩ := h
  exact ⟨l₁.filterMap K.entry, hperm.filterMap K.entry, hsub.filterMap K.entry⟩

/-- an action of `run` that is no arrival brings nothing to the slot -/
theorem waiting_next {hb : Party C.N S.Data} {b : Act C.N S.Data} (hn : o.hb.next S.B b = some hb)
    (hb' : b.arrival r K.inst = none) (k : ℕ) :
    ((hb.inbox r K.inst k).filterMap K.entry).Subperm
      ((o.hb.inbox r K.inst k).filterMap K.entry) := by
  have h := next_inbox (i := K.inst) hn r k
  rw [hb'] at h
  exact K.entry_filterMap h

/-- a call that has just started has sent nothing -/
theorem start_sentTo {tx : Str} {key : Bytes} {rnd : ZMod S.tpke.p} {iv : Bytes} (q : Fin C.N) :
    (Round.start S pid r tx key rnd iv).sentTo S q = [] := by
  have hnone : ∀ j, (Round.start S pid r tx key rnd iv).sentBy S j q = [] := fun _ => rfl
  unfold Round.sentTo
  simp only [hnone]
  exact congrArg (· ++ []) (List.flatMap_eq_nil_iff.mpr fun _ _ => rfl)

/-- the packets that a party has sent hold the messages of its slot -/
theorem component_sent (hK : K.Sound) (ho : Ordered o) (q : Fin C.N) :
    ((o.sentTo S q).filterMap K.component.pick).Perm
      (K.code.sentTo (K.component.view pid o).st q) := by
  have hround : ∀ k : ℕ, ((o.sentIn S k q).map (Prod.mk (k : ℤ))).filterMap K.component.pick =
      if (k : ℤ) = r then (o.sentIn S r q).filterMap K.pick else [] := by
    intro k
    rw [List.filterMap_map]
    split
    · next hk =>
      rw [hk]
      exact List.filterMap_congr fun y _ => if_pos rfl
    · next hk => exact List.filterMap_eq_nil_iff.mpr fun y _ => if_neg hk
  unfold Object.sentTo
  rw [List.filterMap_flatMap]
  simp only [hround]
  cases hx : o.rounds r with
  | none =>
    have hnone : o.sentIn S r q = [] := by
      unfold Object.sentIn
      rw [hx]
    have hnil : ((List.range (o.hb.round.toNat + 1)).flatMap fun k : ℕ =>
        if (k : ℤ) = r then (o.sentIn S r q).filterMap K.pick else []) = [] := by
      rw [hnone]
      exact List.flatMap_eq_nil_iff.mpr fun k _ => ite_self _
    have hstart := hK.sent (Round.start S pid r [] [] 0 []) q
    rw [start_sentTo, hK.init] at hstart
    rw [hnil, component_view_none hx]
    exact hstart
  | some x =>
    have hsome : o.sentIn S r q = x.sentTo S q := by
      unfold Object.sentIn
      rw [hx]
    obtain ⟨h0, h1⟩ := ho.range r x hx
    have hsame : ∀ k : ℕ, (k : ℤ) = r ↔ k = r.toNat := by omega
    simp only [hsame]
    rw [flatMap_single List.nodup_range (List.mem_range.mpr (by omega)), component_view hx, hsome]
    exact hK.sent x q

/-- a message that is at the front is the next one -/
theorem inbox_take {p : Party C.N S.Data} {i : Instance C.N} {k : ℕ} {y : Fin C.N × S.Data}
    (h : ((p.queues r).of i)[k]? = some y) : p.inbox r i k = y :: p.inbox r i (k + 1) := by
  obtain ⟨hk, hy⟩ := List.getElem?_eq_some_iff.mp h
  unfold Party.inbox
  rw [List.drop_eq_getElem_cons hk, hy]
  rfl

/-- what the slot sees of a step in which nothing happens to it -/
def Idle (K : Slot S r τ ν β) (pid : Fin C.N) (a : Object.Act C.N S.tpke.p) (o u : S.Obj) : Prop :=
  K.happens pid a o = none ∧ K.component.view pid u = K.component.view pid o ∧
    (K.component.waiting u).Subperm (K.component.waiting o)

/-- what the slot sees of a step in which something happens to it -/
def Busy (K : Slot S r τ ν β) (pid : Fin C.N) (a : Object.Act C.N S.tpke.p) (o u : S.Obj) : Prop :=
  ∃ e, K.happens pid a o = some e ∧
    K.code.alone pid (K.component.view pid o) e = some (K.component.view pid u) ∧
    (e.message.toList ++ K.component.waiting u).Subperm (K.component.waiting o)

/-- the round `r` is as it was, and no message has come -/
theorem idle_of_eq {u : S.Obj} {a : Object.Act C.N S.tpke.p} (hh : K.happens pid a o = none)
    (h : u.rounds r = o.rounds r)
    (hw : ∀ k, ((u.hb.inbox r K.inst k).filterMap K.entry).Subperm
      ((o.hb.inbox r K.inst k).filterMap K.entry)) : Idle K pid a o u := by
  obtain ⟨hview, hcount⟩ := component_congr (K := K) pid h
  refine ⟨hh, hview, ?_⟩
  show ((u.hb.inbox r K.inst (K.count u)).filterMap K.entry).Subperm _
  rw [hcount]
  exact hw _

theorem step_started (hK : K.Sound) (ho : Ordered o) {key : Bytes} {rnd : ZMod S.tpke.p}
    {iv : Bytes} {tx : Str} {hb : Party C.N S.Data} (hn : o.hb.next S.B .start = some hb) :
    Idle K pid (.start key rnd iv) o
      ({ o with hb := hb }.setRound hb.round (Round.start S pid hb.round tx key rnd iv)) := by
  have hw := waiting_next (K := K) hn rfl
  obtain ⟨htop, hround, -⟩ := next_main hn
  by_cases hr : r = hb.round
  · subst hr
    have hnone : o.rounds hb.round = none := by
      rw [hround]
      exact ho.top htop
    have hsome : ({ o with hb := hb }.setRound hb.round
        (Round.start S pid hb.round tx key rnd iv)).rounds hb.round =
          some (Round.start S pid hb.round tx key rnd iv) := Function.update_self ..
    refine ⟨rfl, ?_, ?_⟩
    · rw [component_view hsome, component_view_none hnone, Slot.view, hK.init]
      rfl
    · show ((hb.inbox _ K.inst (K.count _)).filterMap K.entry).Subperm
        ((o.hb.inbox _ K.inst (K.count o)).filterMap K.entry)
      have hzero : K.count o = 0 := by
        unfold Slot.count
        rw [hnone]
      rw [count_some hsome, hzero]
      exact hw 0
  · exact idle_of_eq rfl (Function.update_of_ne hr ..) hw

theorem step_take (hK : K.Sound) {i : Instance C.N} {x : S.Call} {src : Fin C.N} {m : S.Data}
    (hx : o.rounds r = some x) (hm : ((o.hb.queues r).of i)[(x.rcvd i).length]? = some (src, m))
    (hl : x.listening S r pid i = true) :
    Idle K pid (.take r i) o (o.setRound r (x.recv S r pid src i m)) ∨
      Busy K pid (.take r i) o (o.setRound r (x.recv S r pid src i m)) := by
  have hsome : (o.setRound r (x.recv S r pid src i m)).rounds r =
    some (x.recv S r pid src i m) := Function.update_self ..
  have hrcvd := Round.recv_rcvd r pid src i m x
  by_cases hi : i = K.inst
  · subst hi
    have hcount : K.count o = (x.rcvd K.inst).length := count_some hx
    have hcount' : K.count (o.setRound r (x.recv S r pid src K.inst m)) = K.count o + 1 := by
      rw [count_some hsome, hcount, hrcvd, Function.update_self]
      rfl
    have hhappens : K.happens pid (.take r K.inst) o =
        (K.entry (src, m)).map fun y => .receive y.1 y.2 := by
      refine (if_pos ⟨rfl, rfl⟩).trans ?_
      rw [hcount, hm]
      rfl
    have hwait : K.component.waiting o = (K.entry (src, m)).toList ++
        K.component.waiting (o.setRound r (x.recv S r pid src K.inst m)) := by
      show (o.hb.inbox r K.inst (K.count o)).filterMap K.entry = (K.entry (src, m)).toList ++
        (o.hb.inbox r K.inst (K.count (o.setRound r _))).filterMap K.entry
      rw [hcount', inbox_take (hcount ▸ hm), List.filterMap_cons]
      cases K.entry (src, m) <;> rfl
    cases hread : K.read m with
    | none =>
      have hentry : K.entry (src, m) = none := congrArg (Option.map _) hread
      refine .inl ⟨?_, ?_, ?_⟩
      · rw [hhappens, hentry]
        rfl
      · rw [component_view hx, component_view hsome, Slot.view, Slot.view, hrcvd,
          Function.update_self, List.filterMap_cons, hentry,
          hK.recv_other pid src K.inst m x fun _ => hread]
      · rw [hwait, hentry]
        exact List.Subperm.refl _
    | some m' =>
      have hentry : K.entry (src, m) = some (src, m') := congrArg (Option.map _) hread
      obtain ⟨hlisten, hrecv⟩ := hK.recv_own pid src m m' x hread hl
      refine .inr ⟨.receive src m', ?_, ?_, ?_⟩
      · rw [hhappens, hentry]
        rfl
      · rw [component_view hx, component_view hsome]
        refine (if_pos hlisten).trans ?_
        rw [Slot.view, Slot.view, hrcvd, Function.update_self, List.filterMap_cons, hentry, hrecv]
      · rw [hwait, hentry]
        exact List.Subperm.refl _
  · have hsame : (x.recv S r pid src i m).rcvd K.inst = x.rcvd K.inst := by
      rw [hrcvd]
      exact Function.update_of_ne (Ne.symm hi) ..
    refine .inl ⟨if_neg fun h => hi h.2, ?_, ?_⟩
    · rw [component_view hx, component_view hsome, Slot.view, Slot.view, hsame,
        hK.recv_other pid src i m x fun e => absurd e hi]
    · show ((o.hb.inbox r K.inst (K.count (o.setRound r _))).filterMap K.entry).Subperm
        ((o.hb.inbox r K.inst (K.count o)).filterMap K.entry)
      rw [count_some hsome, count_some hx, hsame]

theorem step_inner (hK : K.Sound) {a : Round.Act C.N} {x y : S.Call} (hx : o.rounds r = some x)
    (hy : Round.Step S r pid x a y) :
    Idle K pid (.inner r a) o (o.setRound r y) ∨ Busy K pid (.inner r a) o (o.setRound r y) := by
  have hsome : (o.setRound r y).rounds r = some y := Function.update_self ..
  have hhappens : K.happens pid (.inner r a) o = (K.occurs pid a x).map .act := by
    refine (if_pos rfl).trans ?_
    rw [hx]
    rfl
  have hwait : (K.component.waiting (o.setRound r y)).Subperm (K.component.waiting o) := by
    show ((o.hb.inbox r K.inst (K.count (o.setRound r y))).filterMap K.entry).Subperm
      ((o.hb.inbox r K.inst (K.count o)).filterMap K.entry)
    rw [count_some hsome, count_some hx, hy.rcvd]
  cases hb : K.occurs pid a x with
  | none =>
    refine .inl ⟨by rw [hhappens, hb]; rfl, ?_, hwait⟩
    rw [component_view hx, component_view hsome, Slot.view, Slot.view, hy.rcvd,
      hK.act_none pid a x y hy hb]
  | some b =>
    refine .inr ⟨.act b, by rw [hhappens, hb]; rfl, ?_, hwait⟩
    rw [component_view hx, component_view hsome, Slot.view, Slot.view, hy.rcvd]
    exact congrArg (Option.map _) (hK.act_some pid a x y b hy hb)

/-- one action of an object, as the slot sees it -/
theorem component_step (hK : K.Sound) (ho : Ordered o) {a : Object.Act C.N S.tpke.p} {u : S.Obj}
    (h : Object.Step S pid o a u) : Idle K pid a o u ∨ Busy K pid a o u := by
  have hsame : ∀ (hb : Party C.N S.Data) k, hb = o.hb →
      ((hb.inbox r K.inst k).filterMap K.entry).Subperm
        ((o.hb.inbox r K.inst k).filterMap K.entry) := by
    rintro hb k rfl
    exact List.Subperm.refl _
  cases h with
  | @outer a b hb hab hn hm =>
    refine .inl (idle_of_eq ?_ rfl (waiting_next hn ?_)) <;> cases hab <;> rfl
  | started hn hm => exact .inl (step_started hK ho hn)
  | @take r' i x src m hx hm hl =>
    by_cases hr : r = r'
    · subst hr
      exact step_take hK hx hm hl
    · exact .inl (idle_of_eq (if_neg fun h => hr h.1.symm) (Function.update_of_ne hr ..)
        fun k => hsame _ k rfl)
  | @inner r' a x y hx hy =>
    by_cases hr : r = r'
    · subst hr
      exact step_inner hK hx hy
    · exact .inl (idle_of_eq (if_neg fun h => hr h.symm) (Function.update_of_ne hr ..)
        fun k => hsame _ k rfl)

/-- what an arrival brings to the slot -/
theorem arrival_entry (src : Fin C.N) (m : S.Msg) :
    ((Act.receive src m.1 m.2 : Act C.N S.Data).arrival r K.inst).toList.filterMap K.entry =
      (K.component.arrival (src, m)).toList := by
  have hpick : K.component.pick m = if m.1 = r then K.pick m.2 else none := rfl
  unfold Act.arrival Component.arrival
  dsimp only
  rw [hpick]
  split
  · unfold pickFor Slot.pick
    dsimp only
    split
    · rw [Option.toList_some, List.filterMap_cons]
      unfold Slot.entry
      dsimp only
      cases K.read m.2.msg <;> rfl
    · rfl
  · rfl

/-- **the object runs the code of the slot** -/
theorem Slot.component_sound (hK : K.Sound) : K.component.Sound (system S) K.code where
  view_init p := rfl
  waiting_init p := by
    show ((Party.init : Party C.N S.Data).inbox r K.inst 0).filterMap K.entry = []
    cases K.inst <;> rfl
  sent p nd h q := component_sent hK (reached_ordered h) q
  view_recv p nd src m h := (component_congr (K := K) p rfl).1
  waiting_recv p nd src m h := by
    show ((((nd.st.hb.next S.B (.receive src m.1 m.2)).getD nd.st.hb).inbox r K.inst
      (K.count nd.st)).filterMap K.entry).Subperm _
    cases hn : nd.st.hb.next S.B (.receive src m.1 m.2) with
    | none => exact (List.sublist_append_right _ _).subperm
    | some hb =>
      refine (K.entry_filterMap (next_inbox hn r _)).trans ?_
      rw [List.filterMap_append]
      rw [arrival_entry]
      exact List.Subperm.refl _
  act_none p nd a x h hx ho := by
    rcases component_step hK (reached_ordered h) (Object.act_step hx) with ⟨-, hview, -⟩ | ⟨e, he, -⟩
    · exact hview
    · cases he.symm.trans ho
  act_some p nd a x e h hx ho := by
    rcases component_step hK (reached_ordered h) (Object.act_step hx) with ⟨hn, -⟩ | ⟨e', he, hv, -⟩
    · cases hn.symm.trans ho
    · obtain rfl := Option.some.inj (he.symm.trans ho)
      exact hv
  waiting_act p nd a x h hx := by
    unfold Component.taken
    rcases component_step hK (reached_ordered h) (Object.act_step hx) with
      ⟨hn, -, hw⟩ | ⟨e, he, -, hw⟩
    · rw [show K.component.occurs p a nd.st = none from hn]
      exact hw
    · rw [show K.component.occurs p a nd.st = some e from he]
      exact hw

end

/-! ## the committee -/

/-- the slots of all parties -/
def Slot.net {τ ν β : Type} (K : Slot S r τ ν β) (s : State S) : Net C.N τ ν := K.component.views s

/-- **every slot is a run of its own**, with what the rounds do to it as its environment -/
theorem Slot.reach {τ ν β : Type} [DecidableEq ν] {K : Slot S r τ ν β} (hK : K.Sound)
    {ok : State S → Label C.N S.Msg (Object.Act C.N S.tpke.p) → Prop}
    {wf : ν → Bool} {ok' : Net C.N τ ν → Label C.N ν β → Prop}
    (hwf : ∀ m m', wellFormed m = true → m.1 = r → K.pick m.2 = some m' → wf m' = true)
    (hok : ∀ s p a x o, (system S).Reachable wellFormed ok s → C.Honest p → ok s (.act p a) →
      (system S).act p a (s p).st = some x → K.happens p a (s p).st = some o →
      ok' (K.net s) (o.label p))
    {s : State S} (h : (system S).Reachable wellFormed ok s) : K.code.Reachable wf ok' (K.net s) := by
  refine Component.reach (K.component_sound hK) (accumulates S) (fun m m' hm hp => ?_) hok h
  by_cases hr : m.1 = r
  · exact hwf m m' hm hr ((if_pos hr).symm.trans hp)
  · cases (if_neg hr).symm.trans hp

/-- what a slot has taken from an honest party, the slot of that party has sent -/
theorem Slot.authentic {τ ν β : Type} [DecidableEq ν] {K : Slot S r τ ν β} (hK : K.Sound)
    {s : State S} (h : Running S s) {p src : Fin C.N} (hp : C.Honest p) (hsrc : C.Honest src) {m : ν}
    (hm : (src, m) ∈ (K.net s p).rcvd) : m ∈ K.code.sentTo (K.net s src).st p :=
  (K.component_sound hK).authentic (accumulates S) h hp hsrc hm

end HoneyBadger
