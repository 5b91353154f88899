import HoneyBadgerBFT.HoneyBadger.Instances

/-!
# HoneyBadgerBFT: what one object does

`Object.Step` is everything that an action of an object can do.  `Ordered` says which rounds there
are: those before the current one, and the current one once it has been started.

* `reached_ordered`   the invariant of one object, whatever arrives;
* `accumulates`       no packet that has been sent is ever taken back.
-/

namespace HoneyBadger
open Async

variable {C : Committee} {S : Setup C}

/-! ## `run` -/

section
variable {N : ℕ} {M : Type} {B : ℕ} {p p' : Party N M}

/-- what an action does to the main loop of `run` -/
def MainStep (p p' : Party N M) : Act N M → Prop
  | .start => p.main = .top ∧ p'.round = p.round ∧
      (p'.main = .indexError ∨ ∃ tx, p'.main = .inRound tx)
  | .finish _ => (∃ tx, p.main = .inRound tx) ∧ p'.round = p.round + 1 ∧
      (p'.main = .top ∨ p'.main = .finished)
  | .fail => (∃ tx, p.main = .inRound tx) ∧ p'.round = p.round ∧ p'.main = .raised
  | _ => p'.round = p.round ∧ p'.main = p.main

theorem next_main {a : Act N M} (h : p.next B a = some p') : MainStep p p' a := by
  obtain ⟨x, hx, rfl⟩ := next_cases h
  cases a with
  | submit tx =>
    obtain rfl := Option.some.inj hx
    exact ⟨rfl, rfl⟩
  | start =>
    simp only [Party.act] at hx
    split at hx
    · next htop =>
      obtain rfl := Option.some.inj hx
      obtain ⟨hround, -, -, -, -, -, hcase⟩ := start_spec B p
      exact ⟨htop, hround, hcase.imp And.left And.left⟩
    · cases hx
  | finish newTx =>
    simp only [Party.act] at hx
    split at hx
    · next tx hm =>
      obtain rfl := Option.some.inj hx
      refine ⟨⟨tx, hm⟩, rfl, ?_⟩
      unfold Party.finish
      dsimp only
      split
      · exact .inr rfl
      · exact .inl rfl
    · cases hx
  | fail =>
    simp only [Party.act] at hx
    split at hx
    · next tx hm =>
      obtain rfl := Option.some.inj hx
      exact ⟨⟨tx, hm⟩, rfl, rfl⟩
    · cases hx
  | receive sender r m =>
    simp only [Party.act] at hx
    split at hx
    · obtain rfl := Option.some.inj hx
      refine ⟨?_, (receive_main sender r m p).2⟩
      show (p.receive sender r m).round = p.round
      unfold Party.receive
      split
      · rfl
      · split <;> rfl
    · cases hx
  | route r =>
    refine ⟨?_, (route_main hx).2⟩
    simp only [Party.act, Party.route] at hx
    split at hx
    · split at hx
      · obtain rfl := Option.some.inj hx
        show (p.routeOne _ _ _).round = p.round
        unfold Party.routeOne
        dsimp only
        split <;> rfl
      · cases hx
    · cases hx

end

/-! ## one action of an object -/

namespace Object

/-- the actions that are actions of `run` -/
inductive Outer (S : Setup C) (pid : Fin C.N) (o : S.Obj) :
    Act C.N S.tpke.p → HoneyBadger.Act C.N S.Data → Prop
  | submit (tx) : Outer S pid o (.submit tx) (.submit tx)
  | start (key rnd iv) : Outer S pid o (.start key rnd iv) .start
  | finish {x newTx} (hx : o.rounds o.hb.round = some x) (h : x.outcome S pid = .returned newTx) :
      Outer S pid o .finish (.finish newTx)
  | fail {x} (hx : o.rounds o.hb.round = some x) (h : x.outcome S pid = .raised) :
      Outer S pid o .fail .fail
  | route (r) : Outer S pid o (.route r) (.route r)

/-- everything that an action can do -/
inductive Step (S : Setup C) (pid : Fin C.N) (o : S.Obj) : Act C.N S.tpke.p → S.Obj → Prop
  | outer {a b hb} (hab : Outer S pid o a b) (hn : o.hb.next S.B b = some hb)
      (hm : b = .start → hb.main = .indexError) : Step S pid o a { o with hb := hb }
  | started {key rnd iv tx hb} (hn : o.hb.next S.B .start = some hb) (hm : hb.main = .inRound tx) :
      Step S pid o (.start key rnd iv)
        ({ o with hb := hb }.setRound hb.round (Round.start S pid hb.round tx key rnd iv))
  | take {r i x src m} (hx : o.rounds r = some x)
      (hm : ((o.hb.queues r).of i)[(x.rcvd i).length]? = some (src, m))
      (hl : x.listening S r pid i = true) :
      Step S pid o (.take r i) (o.setRound r (x.recv S r pid src i m))
  | inner {r a x y} (hx : o.rounds r = some x) (hy : Round.Step S r pid x a y) :
      Step S pid o (.inner r a) (o.setRound r y)

theorem act_step {pid : Fin C.N} {o o' : S.Obj} {a : Act C.N S.tpke.p}
    (h : o.act S pid a = some o') : Step S pid o a o' := by
  cases a with
  | submit tx =>
    simp only [act] at h
    obtain ⟨hb, hn, rfl⟩ := Option.map_eq_some_iff.mp h
    exact .outer (.submit tx) hn (fun h => by cases h)
  | start key rnd iv =>
    obtain ⟨hb, hn, h⟩ := Option.map_eq_some_iff.mp h
    split at h
    · next tx hm =>
      subst h
      exact .started hn hm
    · next hm =>
      subst h
      refine .outer (.start key rnd iv) hn fun _ => ?_
      obtain ⟨-, -, he | ⟨tx, he⟩⟩ := next_main hn
      · exact he
      · exact absurd he (hm tx)
  | finish =>
    obtain ⟨x, hx, h⟩ := Option.bind_eq_some_iff.mp h
    split at h
    · next newTx ho =>
      obtain ⟨hb, hn, rfl⟩ := Option.map_eq_some_iff.mp h
      exact .outer (.finish hx ho) hn (fun h => by cases h)
    · cases h
  | fail =>
    obtain ⟨x, hx, h⟩ := Option.bind_eq_some_iff.mp h
    split at h
    · next ho =>
      obtain ⟨hb, hn, rfl⟩ := Option.map_eq_some_iff.mp h
      exact .outer (.fail hx ho) hn (fun h => by cases h)
    · cases h
  | route r =>
    obtain ⟨hb, hn, rfl⟩ := Option.map_eq_some_iff.mp h
    exact .outer (.route r) hn (fun h => by cases h)
  | take r i =>
    obtain ⟨x, hx, h⟩ := Option.bind_eq_some_iff.mp h
    obtain ⟨⟨src, m⟩, hm, h⟩ := Option.bind_eq_some_iff.mp h
    dsimp only at h
    split at h
    · next hl =>
      obtain rfl := Option.some.inj h
      exact .take hx hm hl
    · cases h
  | inner r a =>
    obtain ⟨x, hx, h⟩ := Option.bind_eq_some_iff.mp h
    obtain ⟨y, hy, h⟩ := Option.bind_eq_some_iff.mp h
    obtain rfl := Option.some.inj h
    exact .inner hx (Round.act_step hy)

/-- an arrival, where `_recv` runs -/
theorem receive_eq (src : Fin C.N) (m : S.Msg) {o : S.Obj}
    (h : (system S).listening o = true) : ∃ hb, o.hb.next S.B (.receive src m.1 m.2) = some hb ∧
      o.receive S src m = { o with hb := hb } := by
  have hrun : o.hb.recvThread = .running := of_decide_eq_true h
  have hact : o.hb.act S.B (.receive src m.1 m.2) = some (o.hb.receive src m.1 m.2) := if_pos hrun
  refine ⟨_, congrArg (Option.map _) hact, ?_⟩
  unfold Object.receive Party.next
  rw [hact]
  rfl

end Object

/-! ## the rounds -/

/-- the rounds that have been started -/
structure Ordered (o : S.Obj) : Prop where
  nonneg : 0 ≤ o.hb.round
  range : ∀ r x, o.rounds r = some x → 0 ≤ r ∧ r ≤ o.hb.round
  top : o.hb.main = .top → o.rounds o.hb.round = none
  unshared : ∀ r x, o.rounds r = some x → x.vall = none → x.myShares = none

theorem setRound_rounds {n : ℕ} {G₁ G : Type} {o : Object n G₁ G} {r r' : ℤ} {x y : Round n G₁ G}
    (h : (o.setRound r x).rounds r' = some y) : r' = r ∧ y = x ∨ r' ≠ r ∧ o.rounds r' = some y := by
  change Function.update o.rounds r (some x) r' = some y at h
  by_cases hr : r' = r
  · rw [hr, Function.update_self] at h
    exact .inl ⟨hr, (Option.some.inj h).symm⟩
  · rw [Function.update_of_ne hr] at h
    exact .inr ⟨hr, h⟩

/-- a round that is there goes on -/
theorem Ordered.setRound {o : S.Obj} (h : Ordered o) {r : ℤ} {x y : S.Call}
    (hx : o.rounds r = some x) (hy : y.vall = none → y.myShares = none) :
    Ordered (o.setRound r y) where
  nonneg := h.nonneg
  range r' z hz := by
    rcases setRound_rounds hz with ⟨rfl, -⟩ | ⟨-, hz⟩
    · exact h.range r' x hx
    · exact h.range r' z hz
  top ht := by
    have hne : o.hb.round ≠ r := by
      intro e
      rw [← e, h.top ht] at hx
      cases hx
    exact (Function.update_of_ne hne ..).trans (h.top ht)
  unshared r' z hz := by
    rcases setRound_rounds hz with ⟨-, rfl⟩ | ⟨-, hz⟩
    · exact hy
    · exact h.unshared r' z hz

theorem Round.recv_shares (r : ℤ) (pid src : Fin C.N) (i : Instance C.N) (m : S.Data) (x : S.Call) :
    (x.recv S r pid src i m).vall = x.vall ∧ (x.recv S r pid src i m).myShares = x.myShares ∧
      (x.recv S r pid src i m).toAcs = x.toAcs ∧ (x.recv S r pid src i m).acs = x.acs := by
  cases i <;> cases m <;> exact ⟨rfl, rfl, rfl, rfl⟩

theorem Round.recv_rcvd (r : ℤ) (pid src : Fin C.N) (i : Instance C.N) (m : S.Data)
    (x : S.Call) :
    (x.recv S r pid src i m).rcvd = Function.update x.rcvd i ((src, m) :: x.rcvd i) := by
  cases i <;> cases m <;> rfl

theorem Round.Step.rcvd {r : ℤ} {pid : Fin C.N} {x y : S.Call} {a : Round.Act C.N}
    (h : Round.Step S r pid x a y) : y.rcvd = x.rcvd := by
  cases h <;> rfl

theorem Round.Step.shares {r : ℤ} {pid : Fin C.N} {x y : S.Call} {a : Round.Act C.N}
    (h : Round.Step S r pid x a y) (hx : x.vall = none → x.myShares = none) :
    y.vall = none → y.myShares = none := by
  cases h with
  | acsOut hto hvall hmain => exact fun h => by cases h
  | _ => exact hx

/-- the main loop of `run` goes on -/
theorem Ordered.run {o : S.Obj} (h : Ordered o) {b : HoneyBadger.Act C.N S.Data}
    {hb : Party C.N S.Data} (hn : o.hb.next S.B b = some hb) (hm : b = .start → hb.main = .indexError) :
    Ordered { o with hb := hb } := by
  have hmain := next_main hn
  have hround : o.hb.round ≤ hb.round ∧ (hb.main = .top → hb.round = o.hb.round ∧ o.hb.main = .top ∨
      hb.round = o.hb.round + 1) := by
    cases b with
    | start =>
      obtain ⟨-, hr, -⟩ := hmain
      exact ⟨hr.ge, fun ht => by cases (hm rfl).symm.trans ht⟩
    | finish newTx =>
      obtain ⟨-, hr, -⟩ := hmain
      exact ⟨by omega, fun _ => .inr hr⟩
    | fail =>
      obtain ⟨-, hr, he⟩ := hmain
      exact ⟨hr.ge, fun ht => by cases he.symm.trans ht⟩
    | submit tx => exact ⟨hmain.1.ge, fun ht => .inl ⟨hmain.1, hmain.2 ▸ ht⟩⟩
    | receive sender r m => exact ⟨hmain.1.ge, fun ht => .inl ⟨hmain.1, hmain.2 ▸ ht⟩⟩
    | route r => exact ⟨hmain.1.ge, fun ht => .inl ⟨hmain.1, hmain.2 ▸ ht⟩⟩
  refine ⟨h.nonneg.trans hround.1, fun r x hx => ?_, fun ht => ?_, h.unshared⟩
  · obtain ⟨h0, h1⟩ := h.range r x hx
    exact ⟨h0, h1.trans hround.1⟩
  · rcases hround.2 ht with ⟨hr, htop⟩ | hr <;> dsimp only <;> rw [hr]
    · exact h.top htop
    · by_contra hne
      obtain ⟨x, hx⟩ := Option.ne_none_iff_exists'.mp hne
      have := (h.range _ x hx).2
      omega

theorem Ordered.started {o : S.Obj} (h : Ordered o) {pid : Fin C.N} {tx : Str} {key : Bytes}
    {rnd : ZMod S.tpke.p} {iv : Bytes} {hb : Party C.N S.Data}
    (hn : o.hb.next S.B .start = some hb) (hm : hb.main = .inRound tx) :
    Ordered ({ o with hb := hb }.setRound hb.round (Round.start S pid hb.round tx key rnd iv)) := by
  obtain ⟨-, hr, -⟩ := next_main hn
  refine ⟨hr ▸ h.nonneg, fun r x hx => ?_, (fun ht => by cases hm.symm.trans ht), fun r x hx => ?_⟩
  · show 0 ≤ r ∧ r ≤ hb.round
    rcases setRound_rounds hx with ⟨rfl, -⟩ | ⟨-, hx⟩
    · exact ⟨hr ▸ h.nonneg, le_refl _⟩
    · exact hr ▸ h.range r x hx
  · rcases setRound_rounds hx with ⟨-, rfl⟩ | ⟨-, hx⟩
    · exact fun _ => rfl
    · exact h.unshared r x hx

theorem Ordered.act {o o' : S.Obj} (h : Ordered o) {pid : Fin C.N} {a : Object.Act C.N S.tpke.p}
    (hs : Object.Step S pid o a o') : Ordered o' := by
  cases hs with
  | outer hab hn hm => exact h.run hn hm
  | started hn hm => exact h.started hn hm
  | @take r i x src m hx hm hl =>
    obtain ⟨h1, h2, -⟩ := Round.recv_shares r pid src i m x
    exact h.setRound hx (h1 ▸ h2 ▸ h.unshared r x hx)
  | inner hx hy => exact h.setRound hx (hy.shares (h.unshared _ _ hx))

theorem reached_ordered {pid : Fin C.N} {nd : Node C.N S.Obj S.Msg}
    (h : (system S).ReachableAlone pid nd) : Ordered nd.st := by
  refine alone_invariant (fun nd : Node C.N S.Obj S.Msg => Ordered nd.st) ?_ ?_ ?_ h
  · exact ⟨le_refl _, (fun _ _ h => by cases h), fun _ => rfl, fun _ _ h => by cases h⟩
  · intro src m nd ho hl
    obtain ⟨hb, hn, he⟩ := Object.receive_eq src m hl
    show Ordered (nd.st.receive S src m)
    rw [he]
    exact ho.run hn (fun h => by cases h)
  · exact fun a nd x ho hx => ho.act (Object.act_step hx)

/-! ## what has been sent -/

section
variable {r : ℤ} {τ ν β : Type} {K : Slot S r τ ν β} {pid : Fin C.N} {x y : S.Call}

theorem Slot.Sound.act_suffix (hK : K.Sound) (hg : K.code.Grows) {a : Round.Act C.N}
    (h : Round.Step S r pid x a y) (q : Fin C.N) :
    K.code.sentTo (K.state x) q <:+ K.code.sentTo (K.state y) q := by
  cases ho : K.occurs pid a x with
  | none => rw [hK.act_none pid a x y h ho]
  | some b => exact hg.2 pid b _ _ q (hK.act_some pid a x y b h ho)

theorem Slot.Sound.recv_suffix (hK : K.Sound) (hg : K.code.Grows) {i : Instance C.N}
    (hl : x.listening S r pid i = true) (src : Fin C.N) (m : S.Data) (q : Fin C.N) :
    K.code.sentTo (K.state x) q <:+ K.code.sentTo (K.state (x.recv S r pid src i m)) q := by
  by_cases hm : i = K.inst → K.read m = none
  · rw [hK.recv_other pid src i m x hm]
  · push Not at hm
    obtain ⟨rfl, hm⟩ := hm
    obtain ⟨m', hm⟩ := Option.ne_none_iff_exists'.mp hm
    rw [(hK.recv_own pid src m m' x hm hl).2]
    exact hg.1 pid src m' _ q

end

namespace Round
variable {r : ℤ} {pid : Fin C.N} {x y : S.Call}

theorem sentTo_sublist (hrbc : ∀ j q, (x.rbc j).sent q <:+ (y.rbc j).sent q)
    (haba : ∀ j, (x.aba j).sent <:+ (y.aba j).sent)
    (hcoin : ∀ j, (x.coin j).sent <:+ (y.coin j).sent)
    (hshares : x.myShares.toList.Sublist y.myShares.toList) (q : Fin C.N) :
    (x.sentTo S q).Sublist (y.sentTo S q) := by
  refine List.Sublist.append (List.Sublist.flatMap_right _ fun j _ => ?_) (hshares.map _)
  exact (((hrbc j q).sublist.map _).append ((haba j).sublist.map _)).append
    ((hcoin j).sublist.map _)

theorem Step.sentTo {a : Act C.N} (h : Step S r pid x a y) (hx : x.vall = none → x.myShares = none)
    (q : Fin C.N) : (x.sentTo S q).Sublist (y.sentTo S q) := by
  refine sentTo_sublist (fun j q => (rbcSlot_sound S r j).act_suffix RBC.grows h q)
    (fun j => (abaSlot_sound S r j).act_suffix BA.grows h q)
    (fun j => (coinSlot_sound S r j).act_suffix Coin.grows h q) ?_ q
  cases h with
  | acsOut hto hvall hmain =>
    rw [hx hvall]
    exact List.nil_sublist _
  | _ => exact List.Sublist.refl _

theorem recv_sentTo {i : Instance C.N} (hl : x.listening S r pid i = true) (src : Fin C.N)
    (m : S.Data) (q : Fin C.N) :
    (x.sentTo S q).Sublist ((x.recv S r pid src i m).sentTo S q) := by
  refine sentTo_sublist (fun j q => (rbcSlot_sound S r j).recv_suffix RBC.grows hl src m q)
    (fun j => (abaSlot_sound S r j).recv_suffix BA.grows hl src m q)
    (fun j => (coinSlot_sound S r j).recv_suffix Coin.grows hl src m q) ?_ q
  rw [(recv_shares r pid src i m x).2.1]

end Round

namespace Object
variable {o u : S.Obj}

theorem sentTo_sublist (o u : S.Obj) (hround : o.hb.round ≤ u.hb.round)
    (h : ∀ r x, o.rounds r = some x → ∃ y, u.rounds r = some y ∧
      ∀ q, (x.sentTo S q).Sublist (y.sentTo S q)) (q : Fin C.N) :
    (o.sentTo S q).Sublist (u.sentTo S q) := by
  have hle : o.hb.round.toNat + 1 ≤ u.hb.round.toNat + 1 := by omega
  unfold Object.sentTo
  refine (List.Sublist.flatMap (List.range_sublist.mpr hle) _).trans
    (List.Sublist.flatMap_right _ fun r _ => List.Sublist.map _ ?_)
  unfold Object.sentIn
  cases hx : o.rounds r with
  | none => exact List.nil_sublist _
  | some x =>
    obtain ⟨y, hy, hsub⟩ := h r x hx
    rw [hy]
    exact hsub q

theorem setRound_sentTo {r : ℤ} {x y : S.Call} (hx : o.rounds r = some x)
    (h : ∀ q, (x.sentTo S q).Sublist (y.sentTo S q)) (q : Fin C.N) :
    (o.sentTo S q).Sublist ((o.setRound r y).sentTo S q) := by
  refine sentTo_sublist o (o.setRound r y) (le_refl _) (fun r' z hz => ?_) q
  by_cases hr : r' = r
  · subst hr
    obtain rfl := Option.some.inj (hx.symm.trans hz)
    exact ⟨y, Function.update_self .., h⟩
  · exact ⟨z, (Function.update_of_ne hr ..).trans hz, fun q => List.Sublist.refl _⟩

theorem next_round {N : ℕ} {M : Type} {B : ℕ} {p p' : Party N M} {a : HoneyBadger.Act N M}
    (h : p.next B a = some p') : p.round ≤ p'.round := by
  have hmain := next_main h
  cases a with
  | start => exact hmain.2.1.ge
  | finish newTx =>
    have := hmain.2.1
    omega
  | fail => exact hmain.2.1.ge
  | submit tx => exact hmain.1.ge
  | receive sender r m => exact hmain.1.ge
  | route r => exact hmain.1.ge

theorem Step.sentTo {pid : Fin C.N} {a : Act C.N S.tpke.p} (ho : Ordered o)
    (h : Step S pid o a u) (q : Fin C.N) : (o.sentTo S q).Sublist (u.sentTo S q) := by
  cases h with
  | @outer a b hb hab hn hm =>
    have hround : o.hb.round ≤ hb.round := next_round hn
    exact sentTo_sublist o { o with hb := hb } hround
      (fun r x hx => ⟨x, hx, fun _ => List.Sublist.refl _⟩) q
  | @started key rnd iv tx hb hn hm =>
    obtain ⟨htop, hr, -⟩ := next_main hn
    have hround : o.hb.round ≤ hb.round := hr.ge
    refine sentTo_sublist o _ hround (fun r x hx => ⟨x, ?_, fun _ => List.Sublist.refl _⟩) q
    refine (Function.update_of_ne (fun e => ?_) ..).trans hx
    rw [e, hr, ho.top htop] at hx
    cases hx
  | take hx hm hl => exact setRound_sentTo hx (Round.recv_sentTo hl _ _) q
  | inner hx hy => exact setRound_sentTo hx (hy.sentTo (ho.unshared _ _ hx)) q

end Object

/-- **no packet that has been sent is ever taken back** -/
theorem accumulates (S : Setup C) : (system S).Accumulates := by
  intro p nd e nd' h hn q
  cases e with
  | receive src m' =>
    simp only [Protocol.alone] at hn
    split at hn
    · next hl =>
      obtain rfl := Option.some.inj hn
      obtain ⟨hb, hn, he⟩ := Object.receive_eq src m' hl
      show (nd.st.sentTo S q).Sublist ((nd.st.receive S src m').sentTo S q)
      rw [he]
      have hround : nd.st.hb.round ≤ hb.round := Object.next_round hn
      exact Object.sentTo_sublist nd.st { nd.st with hb := hb } hround
        (fun r x hx => ⟨x, hx, fun _ => List.Sublist.refl _⟩) q
    · cases hn
  | act a =>
    obtain ⟨x, hx, rfl⟩ := Option.map_eq_some_iff.mp hn
    exact (Object.act_step hx).sentTo (reached_ordered h) q

end HoneyBadger
