import HoneyBadgerBFT.HoneyBadger.Lossless
import HoneyBadgerBFT.HoneyBadger.Subprotocols

/-!
# HoneyBadgerBFT: a round in which nothing can happen

`Quiet S r s`: no packet of the round `r` is on its way between honest parties, and no honest party
has anything to do for this round.  A sub-protocol that listens has then got every message that an
honest party has sent to it (`delivered_of_quiet`), as long as its party has its two receive loops.
-/

namespace HoneyBadger
open Async Trans

variable {C : Committee} {S : Setup C} {r : ℤ} {s : State S} {p : Fin C.N}

/-- of the labels of the round `r` between honest parties, none is enabled -/
structure Quiet (S : Setup C) (r : ℤ) (s : State S) : Prop where
  deliver : ∀ p, C.Honest p → ∀ src, C.Honest src → ∀ y : Packet S.Data,
    (system S).next wellFormed s (.deliver p src (r, y)) = none
  route : ∀ p, C.Honest p → (system S).next wellFormed s (.act p (.route r)) = none
  take : ∀ p, C.Honest p → ∀ i, (system S).next wellFormed s (.act p (.take r i)) = none
  inner : ∀ p, C.Honest p → ∀ a, (system S).next wellFormed s (.act p (.inner r a)) = none

/-- the party `p` is in the round `r`, with a proposal: `_recv` and the loop of the round run -/
structure TakesPart (S : Setup C) (r : ℤ) (s : State S) (p : Fin C.N) (x : S.Call) : Prop where
  recv : (s p).st.hb.recvThread = .running
  loop : (s p).st.hb.loops r = .running
  call : (s p).st.rounds r = some x
  proposal : x.toAcs ≠ none

/-- an honest party that cannot do an action -/
theorem next_act_none (hp : C.Honest p) {a : Object.Act C.N S.tpke.p} :
    (system S).next wellFormed s (.act p a) = none ↔ (s p).st.act S p a = none := by
  show (if C.Honest p then
    ((system S).act p a (s p).st).map fun x => Function.update s p ⟨x, (s p).rcvd⟩ else none) =
      none ↔ _
  rw [if_pos hp]
  exact Option.map_eq_none_iff

/-- of what arrives, an instance reads what its sub-protocol gets -/
theorem arrivalIn_entry {τ ν β : Type} {K : Slot S r τ ν β} (y : Fin C.N × S.Msg) :
    (arrivalIn r K.inst y).bind K.entry = K.component.arrival y := by
  obtain ⟨src, k, z⟩ := y
  have hpick : K.component.pick (k, z) = if k = r then K.pick z else none := rfl
  unfold arrivalIn Component.arrival
  dsimp only
  rw [hpick]
  split
  · unfold pickFor Slot.pick
    dsimp only
    split
    · rfl
    · rfl
  · rfl

section
variable (h : Quiet S r s) (hp : C.Honest p)
include h hp

theorem Quiet.route_none : (s p).st.hb.route r = none := by
  have hnone := (next_act_none hp).mp (h.route p hp)
  replace hnone := Option.map_eq_none_iff.mp hnone
  exact Option.map_eq_none_iff.mp hnone

variable {x : S.Call} (hx : TakesPart S r s p x)
include hx

/-- an instance that listens has emptied its queue -/
theorem Quiet.take_none {i : Instance C.N} (hl : x.listening S r p i = true) :
    (((s p).st.hb.queues r).of i)[(x.rcvd i).length]? = none := by
  have hnone := (next_act_none hp).mp (h.take p hp i)
  unfold Object.act at hnone
  dsimp only at hnone
  rw [hx.call, Option.bind_eq_bind, Option.bind_some] at hnone
  cases hq : (((s p).st.hb.queues r).of i)[(x.rcvd i).length]? with
  | none => rfl
  | some y =>
    rw [hq, Option.bind_eq_bind, Option.bind_some, if_pos hl] at hnone
    cases hnone

theorem Quiet.inner_none (a : Round.Act C.N) : x.act S r p a = none := by
  have hnone := (next_act_none hp).mp (h.inner p hp a)
  unfold Object.act at hnone
  dsimp only at hnone
  rw [hx.call, Option.bind_eq_bind, Option.bind_some] at hnone
  cases hy : x.act S r p a with
  | none => rfl
  | some y =>
    rw [hy] at hnone
    cases hnone

/-- **a sub-protocol that listens has all its messages** -/
theorem delivered_of_quiet {τ ν β : Type} [DecidableEq ν] {K : Slot S r τ ν β}
    (hs : Running S s) (hK : K.Sound) (hl : x.listening S r p K.inst = true) :
    Delivered K.code (K.net s) p := by
  refine (K.component_sound hK).delivered hs hp (decide_eq_true hx.recv)
    (fun src hsrc m hm => ?_) ?_
  · obtain ⟨k, y⟩ := m
    obtain rfl : k = r := by
      by_contra hne
      exact hm (if_neg hne)
    exact h.deliver p hp src hsrc y
  · have hview : (K.component.views s p).rcvd = (x.rcvd K.inst).filterMap K.entry :=
      net_rcvd hx.call
    have hall := (reached_lossless (reach_alone hs p)).rcvd_of_idle hx.call hx.recv hx.loop
      (h.route_none hp) (h.take_none hp hx hl)
    rw [hview, hall, List.filterMap_filterMap,
      List.filterMap_congr fun y _ => arrivalIn_entry (K := K) y]

end

end HoneyBadger
