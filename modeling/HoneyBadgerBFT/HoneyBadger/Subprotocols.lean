import HoneyBadgerBFT.BinaryAgreement.Validity
import HoneyBadgerBFT.HoneyBadger.Parts
import HoneyBadgerBFT.HoneyBadger.Wiring
import HoneyBadgerBFT.HoneyBadgerBlock.Pickle
import HoneyBadgerBFT.ReliableBroadcast.Broadcast

/-!
# HoneyBadgerBFT: the sub-protocols in a run of the committee

Each sub-protocol has been verified on its own, with assumptions on what it gets from the others.
In a run of the committee these assumptions hold:

* `rbc_reached`    a broadcast has none;
* `coin_reached`   neither has a coin, and all honest queues of a round hold one bit;
* `aba_reached`    an agreement gets that bit from its coin, a common one;
* `acs_reached`    the common subset gets outputs of broadcasts and agreements, which meet
                   `ACS.SubProtocols` unless two strings hashed in the broadcasts collide.
-/

namespace HoneyBadger
open Async Trans

variable {C : Committee} {S : Setup C} {r : ℤ} {s t : State S}

/-! ## packets that are well formed -/

theorem pick_eq {τ ν β : Type} {K : Slot S r τ ν β} {y : Packet S.Data} {x : ν}
    (h : K.pick y = some x) : y.place C.N = some K.inst ∧ K.read y.msg = some x := by
  unfold Slot.pick at h
  split at h
  · next hplace => exact ⟨hplace, h⟩
  · cases h

theorem wellFormed_aba {m : S.Msg} {j : Fin C.N} {x : BA.Msg} (hm : wellFormed m = true)
    (hp : (abaSlot S r j).pick m.2 = some x) : x.wellFormed = true := by
  obtain ⟨k, tag, i, msg⟩ := m
  obtain ⟨hplace, hread⟩ := pick_eq hp
  have hmsg : msg = .aba x := by
    cases msg with
    | aba y =>
      obtain rfl := Option.some.inj hread
      rfl
    | _ => cases hread
  subst hmsg
  cases tag with
  | ACS_ABA => exact hm
  | _ => simp [Packet.place, abaSlot] at hplace

theorem wellFormed_coin {m : S.Msg} {j : Fin C.N} {x : Coin.Share S.tsig.G₁}
    (hm : wellFormed m = true) (hp : (coinSlot S r j).pick m.2 = some x) : x.wellFormed = true := by
  obtain ⟨k, tag, i, msg⟩ := m
  obtain ⟨hplace, hread⟩ := pick_eq hp
  have hmsg : msg = .coin x := by
    cases msg with
    | coin y =>
      obtain rfl := Option.some.inj hread
      rfl
    | _ => cases hread
  subst hmsg
  cases tag with
  | ACS_COIN => exact hm
  | _ => simp [Packet.place, coinSlot] at hplace

/-! ## a slot in a step of the committee -/

section
variable {τ ν β : Type} {K : Slot S r τ ν β} {wf : S.Msg → Bool}
  {ok : State S → Label C.N S.Msg (Object.Act C.N S.tpke.p) → Prop}

/-- what a step of the committee does to a slot, the slot can do on its own -/
theorem Slot.next_net (hK : K.Sound) (h : (system S).Reachable wf ok s)
    {e : Label C.N S.Msg (Object.Act C.N S.tpke.p)} (hn : (system S).next wf s e = some t)
    (p : Fin C.N) : K.net t p = K.net s p ∨
      ∃ o, K.code.alone p (K.net s p) o = some (K.net t p) := by
  have halone := reach_alone h p
  have hsound := K.component_sound hK
  rcases next_at hn p with heq | ⟨src, m, -, -, -, -, heq⟩ | ⟨a, x, -, -, hx, heq⟩
  · exact .inl (congrArg (fun nd : Node C.N S.Obj S.Msg => K.component.view p nd.st) heq)
  · left
    refine (congrArg (fun nd : Node C.N S.Obj S.Msg => K.component.view p nd.st) heq).trans ?_
    exact hsound.view_recv p (s p) src m halone
  · have hview : K.net t p = K.component.view p x :=
      congrArg (fun nd : Node C.N S.Obj S.Msg => K.component.view p nd.st) heq
    rw [hview]
    cases ho : K.component.occurs p a (s p).st with
    | none => exact .inl (hsound.act_none p (s p) a x halone hx ho)
    | some o => exact .inr ⟨o, hsound.act_some p (s p) a x o halone hx ho⟩

end

/-! ## broadcasts, coins and agreements -/

theorem rbc_reached (h : Running S s) (r : ℤ) (j : Fin C.N) :
    RBC.Reached (S.rbc j) ((rbcSlot S r j).net s) :=
  Slot.reach (rbcSlot_sound S r j) (fun _ _ _ _ _ => rfl) (fun _ _ _ _ _ _ _ _ _ _ => trivial) h

theorem coin_reached (h : Running S s) (r : ℤ) (j : Fin C.N) :
    (S.coin r j).Reachable Coin.Share.wellFormed (fun _ _ => True) ((coinSlot S r j).net s) :=
  Slot.reach (coinSlot_sound S r j) (fun _ _ hm _ hp => wellFormed_coin hm hp)
    (fun _ _ _ _ _ _ _ _ _ _ => trivial) h

/-- the bit of the coin `j` for its round `k` -/
def Setup.bit (S : Setup C) (r : ℤ) (j : Fin C.N) (k : ℤ) : Bool :=
  Coin.Party.bitOf S.tsig.charm
    (Coin.coinSig S.tsig.charm S.str (S.coinSid r j) (S.tsig.secret :: S.tsig.rest) k)

/-- a bit that waits at an honest party is the bit of the coin -/
theorem queue_bit (h : Running S s) {p j : Fin C.N} (hp : C.Honest p) {k : ℤ} {b : Bool}
    (hb : b ∈ ((coinSlot S r j).net s p).st.outputQueue k) : b = S.bit r j k := by
  have hreach := coin_reached h r j
  have hcall := Coin.reached_call S.tsig.lt S.tsig.dealt hreach p hp
  have hput := Coin.queue_puts (reach_alone hreach p) k hb
  rcases Nat.lt_or_ge C.f (((coinSlot S r j).net s p).st.received k).length with hlt | hle
  · rw [hcall.late k hlt] at hput
    exact List.mem_singleton.mp hput
  · rw [(hcall.early k hle).1] at hput
    cases hput

/-- an agreement in a step of the committee: the coin answers its bit -/
theorem aba_coin {p j : Fin C.N} {a : Object.Act C.N S.tpke.p} {o : S.Obj} {b : Bool}
    (ho : (abaSlot S r j).happens p a o = some (.act (.coin b))) : ∃ x, o.rounds r = some x ∧
      ((x.coin j).outputQueue (x.aba j).r.toNat).head? = some b := by
  cases a with
  | inner r' a =>
    obtain ⟨rfl, ho⟩ := Option.ite_none_right_eq_some.mp ho
    obtain ⟨x, hx, ho⟩ := Option.bind_eq_some_iff.mp ho
    obtain ⟨c, hc, he⟩ := Option.map_eq_some_iff.mp ho
    obtain rfl := Occurrence.act.inj he
    cases a with
    | coinTake k =>
      obtain ⟨rfl, hmap⟩ := Option.ite_none_right_eq_some.mp hc
      obtain ⟨b', hb, he⟩ := Option.map_eq_some_iff.mp hmap
      obtain rfl := BA.Party.Act.coin.inj he
      exact ⟨x, hx, hb⟩
    | abaInput k =>
      obtain ⟨rfl, hmap⟩ := Option.ite_none_right_eq_some.mp hc
      obtain ⟨v, -, he⟩ := Option.map_eq_some_iff.mp hmap
      cases he
    | abaMain k =>
      obtain ⟨-, hmain⟩ := Option.ite_none_right_eq_some.mp hc
      cases hmain
    | _ => cases hc
  | take r' i =>
    obtain ⟨-, ho⟩ := Option.ite_none_right_eq_some.mp ho
    obtain ⟨y, -, he⟩ := Option.map_eq_some_iff.mp ho
    cases he
  | _ => cases ho

theorem aba_reached (h : Running S s) (r : ℤ) (j : Fin C.N) :
    BA.Reached C (BA.CommonCoin (S.bit r j)) ((abaSlot S r j).net s) := by
  have hsound := abaSlot_sound S r j
  have hwf : ∀ (m : S.Msg) m', wellFormed m = true → m.1 = r →
      (abaSlot S r j).pick m.2 = some m' → m'.wellFormed = true :=
    fun _ _ hm _ hp => wellFormed_aba hm hp
  refine Slot.reach hsound hwf (fun s p a x o hs hp _ _ ho => ?_) h
  have hany : BA.Reached C (fun _ _ => True) ((abaSlot S r j).net s) :=
    Slot.reach hsound hwf (fun _ _ _ _ _ _ _ _ _ _ => trivial) hs
  cases o with
  | receive src m => trivial
  | act b =>
    cases b with
    | input v => trivial
    | main => trivial
    | coin b =>
      obtain ⟨y, hy, hb⟩ := aba_coin ho
      have haba : ((abaSlot S r j).net s p).st = y.aba j :=
        congrArg Node.st (component_view (K := abaSlot S r j) hy)
      have hcoin : ((coinSlot S r j).net s p).st = y.coin j :=
        congrArg Node.st (component_view (K := coinSlot S r j) hy)
      have hnonneg := (BA.reached_call hany p hp).ordered.nonneg
      show b = S.bit r j ((abaSlot S r j).net s p).st.r
      rw [haba] at hnonneg ⊢
      have hcast : ((y.aba j).r.toNat : ℤ) = (y.aba j).r := Int.toNat_of_nonneg hnonneg
      refine queue_bit hs hp ?_
      rw [hcoin, ← hcast]
      exact List.mem_of_mem_head? hb

/-! ## the common subset -/

/-- no two strings that the broadcasts of the round have hashed have one digest -/
def NoCollision (S : Setup C) (r : ℤ) (s : State S) : Prop :=
  ∀ j, Set.InjOn S.H.hash (RBC.hashedIn ((rbcSlot S r j).net s))

theorem alone_hashed {R : RBC.Setup C} {p : Fin C.N} {nd nd' : RBC.PNode C}
    {o : Occurrence C.N RBC.Msg Text} (h : (RBC.protocol R).alone p nd o = some nd') :
    nd.st.hashed ⊆ nd'.st.hashed := by
  cases o with
  | receive src m =>
    simp only [Protocol.alone] at h
    split at h
    · obtain rfl := Option.some.inj h
      exact RBC.recv_hashed ..
    · cases h
  | act m =>
    obtain ⟨x, hx, rfl⟩ := Option.map_eq_some_iff.mp h
    exact RBC.act_hashed hx

/-- two strings that collide go on to do so -/
theorem NoCollision.before (h : Running S s) {e : Label C.N S.Msg (Object.Act C.N S.tpke.p)}
    (hn : (system S).next wellFormed s e = some t) (ht : NoCollision S r t) : NoCollision S r s := by
  refine fun j => (ht j).mono ?_
  rintro y ⟨p, hp, hy⟩
  refine ⟨p, hp, ?_⟩
  rcases (rbcSlot S r j).next_net (rbcSlot_sound S r j) h hn p with he | ⟨o, ho⟩
  · rwa [he]
  · exact alone_hashed ho hy

/-- the inputs that the agreements have got stay -/
theorem abaIn_next (h : Running S s) {e : Label C.N S.Msg (Object.Act C.N S.tpke.p)}
    (hn : (system S).next wellFormed s e = some t) (p : Fin C.N) :
    ((acsSlot S r).net s p).st.abaIn ⊆ ((acsSlot S r).net t p).st.abaIn := by
  rcases (acsSlot S r).next_net (acsSlot_sound S r) h hn p with he | ⟨o, ho⟩
  · rw [he]
    exact List.Subset.refl _
  · cases o with
    | receive src m => exact m.elim
    | act b =>
      obtain ⟨x, hx, he⟩ := Option.map_eq_some_iff.mp ho
      rw [← he]
      exact (ACS.act_thread hx p).2.2

/-- what the common subset of a party gets in an action -/
theorem acs_happens {p : Fin C.N} {a : Object.Act C.N S.tpke.p} {o : S.Obj} {b : ACS.Act C.N}
    (h : (acsSlot S r).happens p a o = some (.act b)) : ∃ x, o.rounds r = some x ∧
      ((∃ j m, b = .rbcOut j m ∧ (x.rbc j).status = .returned m) ∨
        (∃ j, b = .rbcRaise j ∧ (x.rbc j).status = .raised) ∨
        (∃ j v, b = .abaOut j v ∧ v ∈ (x.aba j).decisions) ∨ b = .main) := by
  cases a with
  | inner r' a =>
    obtain ⟨rfl, ho⟩ := Option.ite_none_right_eq_some.mp h
    obtain ⟨x, hx, ho⟩ := Option.bind_eq_some_iff.mp ho
    obtain ⟨c, hc, he⟩ := Option.map_eq_some_iff.mp ho
    obtain rfl := Occurrence.act.inj he
    refine ⟨x, hx, ?_⟩
    cases a with
    | rbcOut j =>
      rcases Round.rbcOutputs_eq hc with ⟨m, rfl, hm⟩ | ⟨rfl, hm⟩
      · exact .inl ⟨j, m, rfl, hm⟩
      · exact .inr (.inl ⟨j, rfl, hm⟩)
    | abaOut j =>
      obtain ⟨v, hv, rfl⟩ := Option.map_eq_some_iff.mp hc
      exact .inr (.inr (.inl ⟨j, v, rfl, Round.abaOutputs_mem hv⟩))
    | acsMain => exact .inr (.inr (.inr (Option.some.inj hc).symm))
    | _ => cases hc
  | take r' i =>
    obtain ⟨-, ho⟩ := Option.ite_none_right_eq_some.mp h
    obtain ⟨y, -, he⟩ := Option.map_eq_some_iff.mp ho
    cases he
  | _ => cases h

/-- the input of an agreement has been put by the common subset -/
theorem aba_happens {p j : Fin C.N} {a : Object.Act C.N S.tpke.p} {o : S.Obj} {v : Bool}
    (h : (abaSlot S r j).happens p a o = some (.act (.input v))) :
    ∃ x, o.rounds r = some x ∧ (j, v) ∈ x.acs.abaIn := by
  cases a with
  | inner r' a =>
    obtain ⟨rfl, ho⟩ := Option.ite_none_right_eq_some.mp h
    obtain ⟨x, hx, ho⟩ := Option.bind_eq_some_iff.mp ho
    obtain ⟨c, hc, he⟩ := Option.map_eq_some_iff.mp ho
    obtain rfl := Occurrence.act.inj he
    refine ⟨x, hx, ?_⟩
    cases a with
    | abaInput k =>
      obtain ⟨rfl, hmap⟩ := Option.ite_none_right_eq_some.mp hc
      obtain ⟨w, hw, he⟩ := Option.map_eq_some_iff.mp hmap
      obtain rfl := BA.Party.Act.input.inj he
      obtain ⟨⟨k', w'⟩, hfind, rfl⟩ := Option.map_eq_some_iff.mp hw
      have hk : decide ((k', w').1 = k) = true := List.find?_some
        (p := fun y : Fin C.N × Bool => decide (y.1 = k)) hfind
      obtain rfl : k' = k := of_decide_eq_true hk
      exact List.mem_reverse.mp (List.mem_of_find?_eq_some hfind)
    | abaMain k =>
      obtain ⟨-, hmain⟩ := Option.ite_none_right_eq_some.mp hc
      cases hmain
    | coinTake k =>
      obtain ⟨-, hmap⟩ := Option.ite_none_right_eq_some.mp hc
      obtain ⟨w, -, he⟩ := Option.map_eq_some_iff.mp hmap
      cases he
    | _ => cases hc
  | take r' i =>
    obtain ⟨-, ho⟩ := Option.ite_none_right_eq_some.mp h
    obtain ⟨y, -, he⟩ := Option.map_eq_some_iff.mp ho
    cases he
  | _ => cases h

/-- **no agreement decides a bit that no honest party has put in** -/
theorem input_of_decision (h : Running S s) {p j : Fin C.N} (hp : C.Honest p) {v : Bool}
    (hv : v ∈ ((abaSlot S r j).net s p).st.decisions) :
    ∃ q, C.Honest q ∧ (j, v) ∈ ((acsSlot S r).net s q).st.abaIn := by
  by_contra hno
  push Not at hno
  have hrun := Reach.restrict (D := fun s : State S =>
    ∀ q, C.Honest q → (j, v) ∉ ((acsSlot S r).net s q).st.abaIn)
    (fun a e b ha _ hn hb q hq hmem => hb q hq (abaIn_next ha hn q hmem)) h hno
  have hreach : BA.Reached C (BA.Unanimous !v) ((abaSlot S r j).net s) := by
    refine Slot.reach (abaSlot_sound S r j) (fun _ _ hm _ hx => wellFormed_aba hm hx)
      (fun s p a x o _ hp hok _ ho => ?_) hrun
    cases o with
    | receive src m => trivial
    | act b =>
      cases b with
      | input w =>
        obtain ⟨y, hy, hmem⟩ := aba_happens ho
        have hacs : ((acsSlot S r).net s p).st = y.acs :=
          congrArg Node.st (component_view (K := acsSlot S r) hy)
        have hne : w ≠ v := by
          rintro rfl
          exact hok.2 p hp (hacs ▸ hmem)
        exact Bool.eq_not.mpr hne
      | main => trivial
      | coin b => trivial
  have hnot := BA.decision_of_unanimous hreach hp hv
  cases v <;> cases hnot

/-- the slots of a party in a round -/
theorem net_some {τ ν β : Type} {K : Slot S r τ ν β} {p : Fin C.N} {x : S.Call}
    (hx : (s p).st.rounds r = some x) : (K.net s p).st = K.state x :=
  congrArg Node.st (component_view hx)

/-- the messages that a slot has taken -/
theorem net_rcvd {τ ν β : Type} {K : Slot S r τ ν β} {p : Fin C.N} {x : S.Call}
    (hx : (s p).st.rounds r = some x) : (K.net s p).rcvd = (x.rcvd K.inst).filterMap K.entry :=
  congrArg Node.rcvd (component_view hx)

theorem net_none {τ ν β : Type} {K : Slot S r τ ν β} {p : Fin C.N}
    (hx : (s p).st.rounds r = none) : (K.net s p).st = K.code.init p :=
  congrArg Node.st (component_view_none hx)

section
variable (h : Running S s) (q : Fin C.N) {j : Fin C.N}
include h

theorem net_done {m : Bytes} (hm : ((acsSlot S r).net s q).st.rThreads j = .done m) :
    ((rbcSlot S r j).net s q).st.status = .returned m := by
  cases hx : (s q).st.rounds r with
  | none =>
    rw [net_none hx] at hm
    cases hm
  | some x =>
    rw [net_some hx] at hm ⊢
    exact (reached_wired (reach_alone h q) r x hx).done j m hm

theorem net_raised (hm : ((acsSlot S r).net s q).st.rThreads j = .raised) :
    ((rbcSlot S r j).net s q).st.status = .raised := by
  cases hx : (s q).st.rounds r with
  | none =>
    rw [net_none hx] at hm
    cases hm
  | some x =>
    rw [net_some hx] at hm ⊢
    exact (reached_wired (reach_alone h q) r x hx).raised j hm

theorem net_aba {v : Bool} (hv : ((acsSlot S r).net s q).st.aThreads j = some v) :
    v ∈ ((abaSlot S r j).net s q).st.decisions := by
  cases hx : (s q).st.rounds r with
  | none =>
    rw [net_none hx] at hv
    cases hv
  | some x =>
    rw [net_some hx] at hv ⊢
    exact (reached_wired (reach_alone h q) r x hx).aba j v hv

end

/-- what the common subset gets, meets what is assumed of its sub-protocols -/
theorem subProtocols_of_happens (h : Running S s) (hc : NoCollision S r s) {p : Fin C.N}
    (hp : C.Honest p) {a : Object.Act C.N S.tpke.p} {b : ACS.Act C.N}
    (ho : (acsSlot S r).happens p a (s p).st = some (.act b)) :
    ACS.SubProtocols C ((acsSlot S r).net s) (.act p b) := by
  obtain ⟨x, hx, ⟨j, m, rfl, hm⟩ | ⟨j, rfl, hm⟩ | ⟨j, v, rfl, hv⟩ | rfl⟩ := acs_happens ho
  · have hret : ((rbcSlot S r j).net s p).st.status = .returned m := (net_some hx).symm ▸ hm
    refine fun q hq => ⟨fun hr => ?_, fun m' hm' => ?_⟩
    · exact RBC.not_raised_of_returned (rbc_reached h r j) S.small (hc j) hp hq hret
        (net_raised h q hr)
    · cases hq' : ((acsSlot S r).net s q).st.rThreads j with
      | done m'' =>
        rw [hq'] at hm'
        obtain rfl := Option.some.inj hm'
        exact RBC.returned_unique (rbc_reached h r j) S.small (hc j) hq hp (net_done h q hq') hret
      | _ =>
        rw [hq'] at hm'
        cases hm'
  · have hraised : ((rbcSlot S r j).net s p).st.status = .raised := (net_some hx).symm ▸ hm
    intro q hq
    cases hq' : ((acsSlot S r).net s q).st.rThreads j with
    | done m =>
      exact absurd hraised (RBC.not_raised_of_returned (rbc_reached h r j) S.small (hc j) hq hp
        (net_done h q hq'))
    | _ => rfl
  · have hdec : v ∈ ((abaSlot S r j).net s p).st.decisions := (net_some hx).symm ▸ hv
    refine ⟨fun q hq v' hv' => ?_, input_of_decision h hp hdec⟩
    exact BA.decision_unique (aba_reached h r j) hq hp (net_aba h q hv') hdec
  · trivial

/-- **the common subset runs on sub-protocols that do what it needs**, unless two strings that the
broadcasts have hashed collide -/
theorem acs_reached (h : Running S s) (hc : NoCollision S r s) :
    ACS.Reached C ((acsSlot S r).net s) := by
  have hrun := Reach.restrict (D := NoCollision S r) (fun a e b ha _ hn hb => hb.before ha hn) h hc
  refine Slot.reach (acsSlot_sound S r) (fun _ m _ _ _ => m.elim)
    (fun s p a x o hs hp hok _ ho => ?_) hrun
  have hs : Running S s := Reach.mono (fun _ _ _ => trivial) hs
  cases o with
  | receive src m => exact m.elim
  | act b => exact subProtocols_of_happens hs hok.2 hp ho

/-- **the sub-protocols of a round**: in every run of the committee, and in every round, each of them
does a run of its own, and what it is verified under there holds here -/
theorem subprotocols (C : Committee) (S : Setup C) (s : State S) (h : Running S s) (r : ℤ) :
    (∀ j, RBC.Reached (S.rbc j) ((rbcSlot S r j).net s)) ∧
    (∀ j, (S.coin r j).Reachable Coin.Share.wellFormed (fun _ _ => True) ((coinSlot S r j).net s)) ∧
    (∀ j, BA.Reached C (BA.CommonCoin (S.bit r j)) ((abaSlot S r j).net s)) ∧
    (NoCollision S r s → ACS.Reached C ((acsSlot S r).net s)) :=
  ⟨rbc_reached h r, coin_reached h r, aba_reached h r, acs_reached h⟩

/-! ## a committee of four -/

namespace four

/-- a remainder in place of a hash function -/
def remainder : RBC.Digest where
  hash x :=
    let n := x.foldl (fun n b => (n * 257 + b.toNat + 1) % (2 ^ 256 - 189)) 0
    (List.range 32).map fun i => (n / 256 ^ i % 256).toUInt8
  length x := by simp

def tsig : Tsig Committee.four where
  p := 7
  G₁ := Coin.Z7
  G₂ := Coin.Z7
  T := Coin.Z7
  charm := Coin.seven
  secret := (3 : ℕ)
  rest := [1]
  sPK := TSIG.publicKey Coin.seven 4 2 [(3 : ℕ), 1]
  sSK := (List.range 4).map (TSIG.privateKey Coin.seven 4 2 [(3 : ℕ), 1])
  lt := by decide
  dealt := TSIG.dealer_eq Coin.seven (by decide) (by decide) _ rfl

def tpke : Tpke Committee.four where
  p := 5
  G := Block.Z5
  T := Block.Z5
  packages := Block.five
  secret := (2 : ℕ)
  rest := [(3 : ℕ)]
  ePK := TPKE.publicKey Block.five 4 2 [(2 : ℕ), (3 : ℕ)]
  eSK i := TPKE.privateKey Block.five 4 2 [(2 : ℕ), (3 : ℕ)] i
  lt := by decide
  dealt := TPKE.dealer_eq (by decide) (by decide) _ rfl

def setup : Setup Committee.four where
  sid := [98]
  B := 1
  tsig := tsig
  tpke := tpke
  zfec := RBC.Zfec.twoOfFour
  H := remainder
  pickle := Block.protocol3
  str sid r := sid ++ decimal r
  small := by decide

abbrev Lbl := Label Committee.four.N setup.Msg (Object.Act Committee.four.N 5)

/-- the honest parties -/
def parties : List (Fin Committee.four.N) := [0, 1, 2]

def everybody : List (Fin Committee.four.N) := [0, 1, 2, 3]

def instances : List (Instance Committee.four.N) :=
  .TPKE :: (everybody.map .ACS_RBC ++ everybody.map .ACS_ABA ++ everybody.map .ACS_COIN)

def actions : List (Round.Act Committee.four.N) :=
  let wires := [Round.Act.rbcOut, .abaInput, .coinTake, .abaMain, .abaMain, .abaMain, .abaOut]
  .rbcInput :: (wires.flatMap fun a => everybody.map a) ++ List.replicate 6 .acsMain ++ [.acsOut]

theorem mem_parties : ∀ p, Committee.four.Honest p → p ∈ parties := by decide

theorem mem_everybody : ∀ p, p ∈ everybody := by decide

theorem mem_instances (i : Instance Committee.four.N) : i ∈ instances := by
  cases i <;> simp [instances, mem_everybody]

theorem mem_actions (a : Round.Act Committee.four.N) : a ∈ actions := by
  cases a <;> simp [actions, mem_everybody]

/-- `tx0` to `tx3` -/
def tx (p : Fin Committee.four.N) : Str := [0x74, 0x78, 0x30 + p.val]

def key : Bytes := List.replicate 32 1

def iv : Bytes := List.replicate 16 7

/-- the entry of the Byzantine party -/
def entry : Bytes := (Block.propose Block.five Block.protocol3 tpke.ePK (tx 3) key 1 iv).getD []

def code : List Bytes := (RBC.encode RBC.Zfec.twoOfFour (.bytes entry)).getD []

def tree : List Bytes := RBC.merkleTree remainder code

/-- the Byzantine party broadcasts its entry, and sends a bit to the party 1 alone and an empty vector
of shares to the party 0 -/
def begin : List Lbl :=
  (parties.flatMap fun p =>
    [.act p (.submit (tx p)), .act p (.start key 1 iv),
      .deliver p 3 (0, ⟨.ACS_RBC, 3,
        .rbc (.VAL (tree.getD 1 []) (RBC.getMerkleBranch p tree) (code.getD p []))⟩)]) ++
  [.deliver 1 3 (0, ⟨.ACS_ABA, 2, .aba (.EST 0 false)⟩), .deliver 0 3 (0, ⟨.TPKE, 0, .tpke []⟩)]

/-- what the instance `i` has sent to the party `p`, newest first -/
def outbox (x : setup.Call) (p : Fin Committee.four.N) : Instance Committee.four.N → List setup.Data
  | .ACS_RBC j => ((x.rbc j).sent p).map .rbc
  | .ACS_ABA j => (x.aba j).sent.map .aba
  | .ACS_COIN j => (x.coin j).sent.map .coin
  | .TPKE => x.myShares.toList.map .tpke

def packet (m : setup.Data) : Instance Committee.four.N → Packet setup.Data
  | .ACS_RBC j => ⟨.ACS_RBC, j.val, m⟩
  | .ACS_ABA j => ⟨.ACS_ABA, j.val, m⟩
  | .ACS_COIN j => ⟨.ACS_COIN, j.val, m⟩
  | .TPKE => ⟨.TPKE, 0, m⟩

/-- the packets from the party `q` to the party `p` that are not in the queues of `p` -/
def delivers (s : State setup) (p q : Fin Committee.four.N) : List Lbl :=
  ((s q).st.rounds 0).toList.flatMap fun x => instances.flatMap fun i =>
    let sent := outbox x p i
    let old := (((s p).st.hb.queues 0).of i).countP fun y => decide (y.1 = q)
    (sent.take (sent.length - old)).map fun m => .deliver p q (0, packet m i)

def routes (s : State setup) (p : Fin Committee.four.N) : List Lbl :=
  List.replicate ((s p).st.hb.waiting 0).length (.act p (.route 0))

def takes (s : State setup) (p : Fin Committee.four.N) : List Lbl :=
  ((s p).st.rounds 0).toList.flatMap fun x =>
    (instances.filter (x.listening setup 0 p)).flatMap fun i => List.replicate
      ((((s p).st.hb.queues 0).of i).length - (x.rcvd i).length) (.act p (.take 0 i))

def inner (p : Fin Committee.four.N) : List Lbl :=
  actions.map (fun a => .act p (.inner 0 a)) ++ [.act p .finish, .act p .fail]

/-- the packets are routed, taken or delivered; where there are none, the calls go on -/
def turn (s : State setup) : List Lbl :=
  ([parties.flatMap (routes s), parties.flatMap (takes s),
    parties.flatMap fun p => parties.flatMap (delivers s p)].find? fun l => !l.isEmpty).getD
      (parties.flatMap inner)

/-- the state in which the round 0 has come to its end -/
def last : State setup :=
  let next := (system setup).next wellFormed
  sweep next turn 54 (sweep next (fun _ => begin) 1 (system setup).start)

theorem running : Running setup last := (reach_sweep _ _ _ _).trans (reach_sweep _ _ _ _)

/-- the strings that the broadcast `j` of the round 0 has hashed -/
def hashed (s : State setup) (j : Fin Committee.four.N) : List Bytes :=
  parties.flatMap fun p => ((rbcSlot setup 0 j).net s p).st.hashed

/-- the plaintexts `tx0` to `tx3` -/
def block : List Bytes :=
  [[0x74, 0x78, 0x30], [0x74, 0x78, 0x31], [0x74, 0x78, 0x32], [0x74, 0x78, 0x33]]

/-- the call has the Byzantine entry, and the vectors of two parties, the empty one first -/
def Misled (x : setup.Call) : Prop :=
  x.toAcs.isSome = true ∧ x.vall.any (fun l => decide (l[3]? = some (some entry))) = true ∧
  x.arrivals.head? = some (3, []) ∧ 1 < (Block.senders x.arrivals).card

/-- in the round 0 there is nothing to do for the party `p` -/
def Idle (s : State setup) (p : Fin Committee.four.N) : Prop :=
  (∀ q ∈ parties, ∀ m ∈ (s q).st.sentTo setup p,
    ((system setup).next wellFormed s (.deliver p q m)).isNone = true) ∧
  ((s p).st.act setup p (.route 0)).isNone = true ∧
  (∀ i ∈ instances, ((s p).st.act setup p (.take 0 i)).isNone = true) ∧
  ∀ a ∈ actions, ((s p).st.act setup p (.inner 0 a)).isNone = true

/-- the loops of the party `p` run, and its agreements have returned, without a relay that another
honest party has not made -/
def Through (s : State setup) (p : Fin Committee.four.N) : Prop :=
  (s p).st.hb.recvThread = .running ∧ (s p).st.hb.loops 0 = .running ∧
  ((s p).st.rounds 0).any (fun x => x.toAcs.isSome) = true ∧
  ∀ j ∈ everybody, ((abaSlot setup 0 j).net s p).st.pc = .returned ∧
    (((abaSlot setup 0 j).net s p).rcvd.countP fun y => decide (y.1 = 3)) ≤ 1 ∧
    ∀ q ∈ parties, ((abaSlot setup 0 j).net s p).st.sent ⊆ ((abaSlot setup 0 j).net s q).st.sent

instance : DecidablePred Misled := fun _ => inferInstanceAs (Decidable (_ ∧ _ ∧ _ ∧ _))

instance (s : State setup) : DecidablePred (Idle s) := fun _ =>
  inferInstanceAs (Decidable (_ ∧ _ ∧ _ ∧ _))

instance (s : State setup) : DecidablePred (Through s) := fun _ =>
  inferInstanceAs (Decidable (_ ∧ _ ∧ _ ∧ _))

theorem evaluated :
    ((last 0).st.hb.round = 0 ∧ ((last 0).st.rounds 0).any (fun x => decide (Misled x)) = true) ∧
    (∀ p, p = 1 ∨ p = 2 →
      (last p).st.blocks = [block] ∧ (last p).st.hb.round = 1 ∧ (last p).st.hb.main = .top) ∧
    (∀ j, ((hashed last j).dedup.map remainder.hash).Nodup) ∧
    ∀ p ∈ parties, Idle last p ∧ Through last p := by
  decide +kernel

theorem rounds_none {r : ℤ} (hr : r ≠ 0) {p : Fin Committee.four.N} (hp : Committee.four.Honest p) :
    (last p).st.rounds r = none := by
  have hord := reached_ordered (reach_alone running p)
  by_contra hne
  obtain ⟨x, hx⟩ := Option.ne_none_iff_exists'.mp hne
  obtain ⟨h0, h1⟩ := hord.range r x hx
  obtain rfl | hrest : p = 0 ∨ p = 1 ∨ p = 2 := by
    have hmem := mem_parties p hp
    simpa [parties] using hmem
  · rw [evaluated.1.1] at h1
    omega
  · obtain ⟨-, hround, hmain⟩ := evaluated.2.1 p hrest
    have hone : r = 1 := by omega
    rw [hone, ← hround, hord.top hmain] at hx
    cases hx

theorem noCollision (r : ℤ) : NoCollision setup r last := by
  intro j x hx y hy
  obtain ⟨p, hp, hx⟩ := hx
  obtain ⟨q, hq, hy⟩ := hy
  by_cases hr : r = 0
  · subst hr
    have hmem : ∀ p, Committee.four.Honest p → ∀ x,
        x ∈ ((rbcSlot setup 0 j).net last p).st.hashed → x ∈ (hashed last j).dedup := by
      intro p hp x hx
      exact List.mem_dedup.mpr (List.mem_flatMap.mpr ⟨p, mem_parties p hp, hx⟩)
    exact List.inj_on_of_nodup_map (evaluated.2.2.1 j) (hmem p hp x hx) (hmem q hq y hy)
  · rw [net_none (rounds_none hr hp)] at hx
    cases hx

end four

theorem subprotocols_four : Running four.setup four.last ∧
    (∀ j, RBC.Reached (four.setup.rbc j) ((rbcSlot four.setup 0 j).net four.last)) ∧
    (∀ j, (four.setup.coin 0 j).Reachable Coin.Share.wellFormed (fun _ _ => True)
      ((coinSlot four.setup 0 j).net four.last)) ∧
    (∀ j, BA.Reached Committee.four (BA.CommonCoin (four.setup.bit 0 j))
      ((abaSlot four.setup 0 j).net four.last)) ∧
    ACS.Reached Committee.four ((acsSlot four.setup 0).net four.last) := by
  obtain ⟨hrbc, hcoin, haba, hacs⟩ :=
    subprotocols Committee.four four.setup four.last four.running 0
  exact ⟨four.running, hrbc, hcoin, haba, hacs (four.noCollision 0)⟩

end HoneyBadger
