import HoneyBadgerBFT.Library.Drain

/-!
# Parts of the parties of an asynchronous network

The code of a party of the network `Q` may hold, among other things, the code of a party of another
protocol `P`: it hands it some of the messages that arrive, sends its messages in envelopes of its
own, and does its actions in some of its own.  `Component` says where this part is in a state of `Q`,
and `Component.Sound` what the code of one party has to satisfy.

* `Component.reach`       in every run of `Q` the parts of the parties do a run of `P`, with the same
                          authenticated channels: what is proved of `P` on its own holds of the part;
* `Sound.delivered`       a part that has taken all there is has every message that was sent to it.

Messages on the way to a part wait twice: in the channels of `Q`, and at the party, from their arrival
until the part takes them.  The latter are the list `waiting`.
-/

namespace Async
open Trans

variable {C : Committee} {σ μ α τ ν β : Type}

/-- the message of an arrival -/
def Occurrence.message {n : ℕ} : Occurrence n ν β → Option (Fin n × ν)
  | .receive src m => some (src, m)
  | .act _ => none

/-- what happens to the party `p`, as a step of the network -/
def Occurrence.label {n : ℕ} (p : Fin n) : Occurrence n ν β → Label n ν β
  | .receive src m => .deliver p src m
  | .act b => .act p b

/-- where a party with states `σ` has a party with states `τ` in it -/
structure Component (n : ℕ) (σ μ α τ ν β : Type) where
  /-- the part: its state, and the messages that it has taken -/
  view : Fin n → σ → Node n τ ν
  /-- the messages for the part that have arrived and that it has not taken -/
  waiting : σ → List (Fin n × ν)
  /-- the message for the part in an envelope -/
  pick : μ → Option ν
  /-- what happens to the part when the party does an action -/
  occurs : Fin n → α → σ → Option (Occurrence n ν β)

namespace Component
variable (K : Component C.N σ μ α τ ν β)

/-- the parts of all parties -/
def views (s : Net C.N σ μ) : Net C.N τ ν := fun p => K.view p (s p).st

/-- an arrival that has a message for the part -/
def arrival (x : Fin C.N × μ) : Option (Fin C.N × ν) := (K.pick x.2).map (Prod.mk x.1)

/-- the message that the part takes in an action of the party -/
def taken (p : Fin C.N) (a : α) (x : σ) : Option (Fin C.N × ν) :=
  (K.occurs p a x).bind Occurrence.message

/-- what the code of one party of `Q` has to satisfy for its part to be a party of `P` -/
structure Sound (Q : Protocol C.N σ μ α) (P : Protocol C.N τ ν β) : Prop where
  view_init : ∀ p, K.view p (Q.init p) = ⟨P.init p, []⟩
  waiting_init : ∀ p, K.waiting (Q.init p) = []
  /-- the envelopes that a party sends hold messages of its part -/
  sent : ∀ p nd, Q.ReachableAlone p nd → ∀ q,
    ((Q.sentTo nd.st q).filterMap K.pick).Perm (P.sentTo (K.view p nd.st).st q)
  view_recv : ∀ p nd src m, Q.ReachableAlone p nd →
    K.view p (Q.recv p src m nd.st) = K.view p nd.st
  waiting_recv : ∀ p nd src m, Q.ReachableAlone p nd →
    (K.waiting (Q.recv p src m nd.st)).Subperm ((K.arrival (src, m)).toList ++ K.waiting nd.st)
  act_none : ∀ p nd a x, Q.ReachableAlone p nd → Q.act p a nd.st = some x →
    K.occurs p a nd.st = none → K.view p x = K.view p nd.st
  act_some : ∀ p nd a x o, Q.ReachableAlone p nd → Q.act p a nd.st = some x →
    K.occurs p a nd.st = some o → P.alone p (K.view p nd.st) o = some (K.view p x)
  waiting_act : ∀ p nd a x, Q.ReachableAlone p nd → Q.act p a nd.st = some x →
    ((K.taken p a nd.st).toList ++ K.waiting x).Subperm (K.waiting nd.st)

end Component

/-! ## one party -/

section
variable [DecidableEq ν] {K : Component C.N σ μ α τ ν β} {Q : Protocol C.N σ μ α}
  {P : Protocol C.N τ ν β} {p : Fin C.N} {nd nd' : Node C.N σ μ}

/-- what the part has taken, when something has happened to it -/
theorem rcvd_alone {x x' : Node C.N τ ν} {o : Occurrence C.N ν β} (h : P.alone p x o = some x')
    (y : Fin C.N × ν) : x'.rcvd.count y = x.rcvd.count y + o.message.toList.count y := by
  cases o with
  | receive src m =>
    simp only [Protocol.alone] at h
    split at h
    · obtain rfl := Option.some.inj h
      simp [Occurrence.message, List.count_cons]
    · cases h
  | act b =>
    obtain ⟨z, -, rfl⟩ := Option.map_eq_some_iff.mp h
    rfl

/-- what the part has taken and what waits for it are among what has arrived at the party -/
theorem Component.Sound.arrived (hK : K.Sound Q P) (h : Q.ReachableAlone p nd) (y : Fin C.N × ν) :
    (K.view p nd.st).rcvd.count y + (K.waiting nd.st).count y ≤
      (nd.rcvd.filterMap K.arrival).count y := by
  refine Reach.invariant_of_reach (fun nd : Node C.N σ μ =>
    (K.view p nd.st).rcvd.count y + (K.waiting nd.st).count y ≤
      (nd.rcvd.filterMap K.arrival).count y) (fun nd o nd' hr ih _ hn => ?_) h ?_
  · cases o with
    | receive src m =>
      simp only [Protocol.alone] at hn
      split at hn
      · obtain rfl := Option.some.inj hn
        have hw := (hK.waiting_recv p nd src m hr).count_le y
        rw [List.count_append] at hw
        have hcons : (((src, m) :: nd.rcvd).filterMap K.arrival).count y =
            (K.arrival (src, m)).toList.count y + (nd.rcvd.filterMap K.arrival).count y := by
          rw [← List.count_append, List.filterMap_cons]
          cases K.arrival (src, m) <;> rfl
        dsimp only
        rw [hcons, hK.view_recv p nd src m hr]
        omega
      · cases hn
    | act a =>
      obtain ⟨x, hx, rfl⟩ := Option.map_eq_some_iff.mp hn
      have hw := (hK.waiting_act p nd a x hr hx).count_le y
      rw [List.count_append] at hw
      dsimp only
      cases ho : K.occurs p a nd.st with
      | none =>
        rw [hK.act_none p nd a x hr hx ho]
        omega
      | some o =>
        have ht := rcvd_alone (hK.act_some p nd a x o hr hx ho) y
        rw [Component.taken, ho, Option.bind_some] at hw
        omega
  · rw [hK.view_init, hK.waiting_init]
    exact Nat.zero_le _

end

/-! ## the network -/

section
variable [DecidableEq μ] [DecidableEq ν] {K : Component C.N σ μ α τ ν β} {Q : Protocol C.N σ μ α}
  {P : Protocol C.N τ ν β} {wf : μ → Bool} {wf' : ν → Bool}
  {ok : Net C.N σ μ → Label C.N μ α → Prop} {ok' : Net C.N τ ν → Label C.N ν β → Prop}
  {s : Net C.N σ μ}

/-- a message that arrives from a Byzantine party passes the test -/
theorem wf_of_arrived (h : Q.Reachable wf ok s) : ∀ p, C.Honest p → ∀ src, ¬ C.Honest src → ∀ m,
    (src, m) ∈ (s p).rcvd → wf m = true := by
  refine Reach.invariant (fun s : Net C.N σ μ => ∀ p, C.Honest p → ∀ src, ¬ C.Honest src → ∀ m,
    (src, m) ∈ (s p).rcvd → wf m = true) ?_ h fun _ _ _ _ _ hm => by cases hm
  intro s e t hs _ hn p hp src hsrc m hm
  rcases next_at hn p with heq | ⟨src', m', -, -, -, hpend, heq⟩ | ⟨a, x, -, -, -, heq⟩ <;>
    rw [heq] at hm
  · exact hs p hp src hsrc m hm
  · rcases List.mem_cons.mp hm with he | hold
    · obtain ⟨rfl, rfl⟩ := Prod.mk.inj he
      exact pending_byz hsrc hpend
    · exact hs p hp src hsrc m hold
  · exact hs p hp src hsrc m hm

omit [DecidableEq μ] in
/-- what has come out of the envelopes of one party -/
theorem count_arrival (rcvd : List (Fin C.N × μ)) (src : Fin C.N) (m : ν) :
    (rcvd.filterMap K.arrival).count (src, m) =
      (((rcvd.filter fun x => decide (x.1 = src)).map Prod.snd).filterMap K.pick).count m := by
  rw [List.filterMap_map, List.filterMap_filter]
  unfold List.count
  rw [List.countP_filterMap, List.countP_filterMap]
  refine List.countP_congr fun x _ => ?_
  obtain ⟨src', m'⟩ := x
  by_cases he : src' = src
  · subst he
    cases hpick : K.pick m' <;> simp [Component.arrival, hpick]
  · cases hpick : K.pick m' <;> simp [Component.arrival, hpick, he]

theorem count_envelope (rcvd : List (Fin C.N × μ)) (src : Fin C.N) (m : μ) :
    ((rcvd.filter fun x => decide (x.1 = src)).map Prod.snd).count m = rcvd.count (src, m) := by
  rw [List.count, List.countP_map, List.countP_filter]
  refine List.countP_congr fun x _ => ?_
  obtain ⟨src', m'⟩ := x
  simp [and_comm]

/-- what comes out of the envelopes of an honest party has been put into them -/
theorem count_arrival_le (hg : Q.Accumulates) (h : Q.Reachable wf ok s) {p src : Fin C.N}
    (hp : C.Honest p) (hsrc : C.Honest src) (m : ν) :
    ((s p).rcvd.filterMap K.arrival).count (src, m) ≤
      ((Q.sentTo (s src).st p).filterMap K.pick).count m := by
  have hsub : (((s p).rcvd.filter fun x => decide (x.1 = src)).map Prod.snd).Subperm
      (Q.sentTo (s src).st p) := by
    refine List.subperm_ext_iff.mpr fun y _ => ?_
    rw [count_envelope]
    exact count_le hg h p hp src hsrc y
  obtain ⟨l, hperm, hle⟩ := hsub
  rw [count_arrival, ← (hperm.filterMap K.pick).count_eq]
  exact (hle.filterMap K.pick).count_le m

/-- a message that waits for the part can be delivered to it in its own network -/
theorem Component.Sound.pending (hK : K.Sound Q P) (hg : Q.Accumulates)
    (hwf : ∀ m m', wf m = true → K.pick m = some m' → wf' m' = true) (h : Q.Reachable wf ok s)
    {p src : Fin C.N} (hp : C.Honest p) {m : ν} (hm : (src, m) ∈ K.waiting (s p).st) :
    P.pending wf' (K.views s) p src m = true := by
  have harr := hK.arrived (reach_alone h p) (src, m)
  have hpos := List.count_pos_iff.mpr hm
  unfold Protocol.pending
  split
  · next hsrc =>
    have h1 := count_arrival_le (K := K) hg h hp hsrc m
    have h2 := (hK.sent src (s src) (reach_alone h src) p).count_eq m
    refine decide_eq_true ?_
    unfold Component.views
    omega
  · next hsrc =>
    have hmem : (src, m) ∈ (s p).rcvd.filterMap K.arrival := List.count_pos_iff.mp (by omega)
    obtain ⟨⟨src', m'⟩, hold, he⟩ := List.mem_filterMap.mp hmem
    obtain ⟨x, hx, hxe⟩ := Option.map_eq_some_iff.mp he
    obtain ⟨rfl, rfl⟩ := Prod.mk.inj hxe
    exact hwf m' x (wf_of_arrived h p hp src' hsrc m' hold) hx

/-- what a part has taken from an honest party, the part of that party has sent -/
theorem Component.Sound.authentic (hK : K.Sound Q P) (hg : Q.Accumulates) (h : Q.Reachable wf ok s)
    {p src : Fin C.N} (hp : C.Honest p) (hsrc : C.Honest src) {m : ν}
    (hm : (src, m) ∈ (K.views s p).rcvd) : m ∈ P.sentTo (K.views s src).st p := by
  have harr := hK.arrived (reach_alone h p) (src, m)
  have hle := count_arrival_le (K := K) hg h hp hsrc m
  have hsent := (hK.sent src (s src) (reach_alone h src) p).count_eq m
  have hpos := List.count_pos_iff.mpr hm
  unfold Component.views at hpos ⊢
  exact List.count_pos_iff.mp (by omega)

omit [DecidableEq ν] in
theorem deliver_none_of_not_sent {p src : Fin C.N} (hsrc : C.Honest src) {m : μ}
    (hm : m ∉ Q.sentTo (s src).st p) : Q.next wf s (.deliver p src m) = none := by
  refine if_neg fun hdel => hm ?_
  exact List.count_pos_iff.mp (Nat.zero_lt_of_lt (pending_honest hsrc hdel.2.2))

omit [DecidableEq ν] in
/-- what cannot be delivered to a party that listens, has been -/
theorem count_of_deliver_none {p src : Fin C.N} (hp : C.Honest p) (hsrc : C.Honest src)
    (hl : Q.listening (s p).st = true) {m : μ} (h : Q.next wf s (.deliver p src m) = none) :
    (Q.sentTo (s src).st p).count m ≤ (s p).rcvd.count (src, m) := by
  by_contra hlt
  have hpend : Q.pending wf s p src m = true := by
    unfold Protocol.pending
    rw [if_pos hsrc]
    exact decide_eq_true (not_le.mp hlt)
  cases (if_pos ⟨hp, hl, hpend⟩).symm.trans h

/-- **nothing is on its way to a part** that has taken whatever has arrived for it, where nothing is
on its way to its party -/
theorem Component.Sound.delivered (hK : K.Sound Q P) (h : Q.Reachable wf ok s) {p : Fin C.N}
    (hp : C.Honest p) (hl : Q.listening (s p).st = true)
    (hdel : ∀ src, C.Honest src → ∀ m, K.pick m ≠ none → Q.next wf s (.deliver p src m) = none)
    (hall : ((s p).rcvd.filterMap K.arrival).Subperm (K.views s p).rcvd) :
    Delivered P (K.views s) p := by
  intro src hsrc m
  have hsent := (hK.sent src (s src) (reach_alone h src) p).count_eq m
  have hsub : ((Q.sentTo (s src).st p).filter fun m => (K.pick m).isSome).Subperm
      (((s p).rcvd.filter fun x => decide (x.1 = src)).map Prod.snd) := by
    refine List.subperm_ext_iff.mpr fun y hy => ?_
    obtain ⟨-, hsome⟩ := List.mem_filter.mp hy
    rw [count_envelope, List.count_filter (p := fun m => (K.pick m).isSome) hsome]
    exact count_of_deliver_none hp hsrc hl (hdel src hsrc y (Option.isSome_iff_ne_none.mp hsome))
  have hpicks : (Q.sentTo (s src).st p).filterMap K.pick =
      ((Q.sentTo (s src).st p).filter fun m => (K.pick m).isSome).filterMap K.pick := by
    rw [List.filterMap_filter]
    refine List.filterMap_congr fun y _ => ?_
    cases K.pick y <;> rfl
  obtain ⟨l, hperm, hle⟩ := hsub
  have hcount := (hle.filterMap K.pick).count_le m
  rw [(hperm.filterMap K.pick).count_eq, ← hpicks, hsent, ← count_arrival] at hcount
  exact hcount.trans (hall.count_le _)

/-- **parts of a network**: in every run of `Q` the parts of the parties do a run of `P` -/
theorem Component.reach (hK : K.Sound Q P) (hg : Q.Accumulates)
    (hwf : ∀ m m', wf m = true → K.pick m = some m' → wf' m' = true)
    (hok : ∀ s p a x o, Q.Reachable wf ok s → C.Honest p → ok s (.act p a) →
      Q.act p a (s p).st = some x → K.occurs p a (s p).st = some o → ok' (K.views s) (o.label p))
    (h : Q.Reachable wf ok s) : P.Reachable wf' ok' (K.views s) := by
  refine Reach.invariant_of_reach (fun s => P.Reachable wf' ok' (K.views s))
    (fun s e t hr ih hoke hn => ?_) h ?_
  · have hupd : ∀ p nd, K.view p nd.st = K.view p (s p).st →
        K.views (Function.update s p nd) = K.views s := by
      intro p nd he
      funext q
      by_cases hq : q = p
      · subst hq
        rw [Component.views, Function.update_self, he]
        rfl
      · rw [Component.views, Function.update_of_ne hq]
        rfl
    rcases next_cases hn with ⟨dst, src, m, -, -, -, -, rfl⟩ | ⟨p, a, x, rfl, hp, hx, rfl⟩
    · rwa [hupd dst _ (hK.view_recv dst (s dst) src m (reach_alone hr dst))]
    · have halone := reach_alone hr p
      cases ho : K.occurs p a (s p).st with
      | none => rwa [hupd p _ (hK.act_none p (s p) a x halone hx ho)]
      | some o =>
        have hview := hK.act_some p (s p) a x o halone hx ho
        have hlabel := hok s p a x o hr hp hoke hx ho
        have hnew : K.views (Function.update s p ⟨x, (s p).rcvd⟩) =
            Function.update (K.views s) p (K.view p x) := by
          funext q
          by_cases hq : q = p
          · subst hq
            rw [Component.views, Function.update_self, Function.update_self]
          · rw [Component.views, Function.update_of_ne hq, Function.update_of_ne hq]
            rfl
        rw [hnew]
        refine ih.tail ⟨o.label p, hlabel, ?_⟩
        cases o with
        | receive src m =>
          have hmem : (src, m) ∈ K.waiting (s p).st := by
            have hw := hK.waiting_act p (s p) a x halone hx
            rw [Component.taken, ho] at hw
            exact hw.subset List.mem_cons_self
          have hpend := hK.pending hg hwf hr hp hmem
          simp only [Protocol.alone] at hview
          split at hview
          · next hl =>
            rw [← Option.some.inj hview]
            exact if_pos ⟨hp, hl, hpend⟩
          · cases hview
        | act b =>
          obtain ⟨y, hy, hye⟩ := Option.map_eq_some_iff.mp hview
          rw [← hye]
          refine (if_pos hp).trans ?_
          rw [show (K.views s p) = K.view p (s p).st from rfl, hy]
          rfl
  · have hstart : K.views Q.start = P.start := funext fun p => hK.view_init p
    rw [hstart]
    exact Reach.refl _

end

end Async
