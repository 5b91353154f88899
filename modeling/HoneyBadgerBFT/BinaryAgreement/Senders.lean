import HoneyBadgerBFT.BinaryAgreement.Delivery

/-!
# Binary agreement: honest senders are never redundant

The receive loop with messages as they arrive (`RawMsg`): the bits are any integers, and the loop
passes over a message with another tag.  A party on its own, whatever arrives, broadcasts no message
twice; so without duplication in the channels nothing that an honest party sends is rejected.

* `recvRaw_cases`     a turn of the loop is a turn for a message with bits;
* `Sending`           what one call may broadcast;
* `never_rejected`    every call does, and every message from an honest party is taken in.
-/

namespace BA
open Async Trans Party

/-- a message as it arrives; `malformed` is one that cannot be taken apart, which raises, and `other`
one with another tag -/
inductive RawMsg where
  | EST (r v : ℤ)
  | AUX (r v : ℤ)
  | CONF (r : ℤ) (v : List ℤ)
  | malformed
  | other
deriving DecidableEq

/-- `v in (0, 1)` -/
def bit : ℤ → Option Bool
  | 0 => some false
  | 1 => some true
  | _ => none

/-- the integer of a bit -/
def unbit (b : Bool) : ℤ := if b then 1 else 0

def Msg.raw : Msg → RawMsg
  | .EST r v => .EST r (unbit v)
  | .AUX r v => .AUX r (unbit v)
  | .CONF r v => .CONF r (v.map unbit)

/-- one turn of `_recv` -/
def Party.recvRaw {n : ℕ} (f : ℕ) (sender : Fin n) (m : RawMsg) (p : Party n) : Party n :=
  match m with
  | .EST r v =>
    match bit v with
    | some b => p.recvEst f sender r b
    | none => { p with recvLoop := .assertionError }
  | .AUX r v =>
    match bit v with
    | some b => p.recvAux sender r b
    | none => { p with recvLoop := .assertionError }
  | .CONF r v =>
    match v.mapM bit with
    | some c => p.handleConfMessages sender r c
    | none => { p with recvLoop := .assertionError }
  -- nothing catches this exception either, and the model does not tell the two apart
  | .malformed => { p with recvLoop := .assertionError }
  | .other => p

/-- `binaryagreement` at every party, with messages as they arrive -/
def rawProtocol (n f : ℕ) : Protocol n (Party n) RawMsg Party.Act where
  init _ := Party.init
  listening p := decide (p.recvLoop = .running)
  recv _ sender m p := p.recvRaw f sender m
  act _ a p := p.act f a
  sentTo p _ := p.sent.map Msg.raw

section
variable {n f : ℕ} {sender : Fin n} {p : Party n}

theorem bit_unbit (b : Bool) : bit (unbit b) = some b := by
  cases b <;> rfl

theorem mapM_bit_unbit (c : List Bool) : (c.map unbit).mapM bit = some c := by
  induction c with
  | nil => rfl
  | cons b c ih =>
    rw [List.map_cons, List.mapM_cons, bit_unbit, ih]
    rfl

theorem unbit_of_bit {v : ℤ} {b : Bool} (h : bit v = some b) : v = unbit b := by
  unfold bit at h
  split at h
  · obtain rfl := Option.some.inj h
    rfl
  · obtain rfl := Option.some.inj h
    rfl
  · cases h

theorem map_unbit_of_mapM : ∀ {v : List ℤ} {c : List Bool}, v.mapM bit = some c →
    v = c.map unbit := by
  intro v
  induction v with
  | nil =>
    intro c h
    obtain rfl := Option.some.inj h
    rfl
  | cons x v ih =>
    intro c h
    rw [List.mapM_cons] at h
    obtain ⟨b, hb, h⟩ := Option.bind_eq_some_iff.mp h
    obtain ⟨c', hc', h⟩ := Option.bind_eq_some_iff.mp h
    obtain rfl := Option.some.inj h
    rw [List.map_cons, ← unbit_of_bit hb, ← ih hc']

/-- a message of bits is received as it is in the protocol of bits -/
theorem recvRaw_raw (m : Msg) : p.recvRaw f sender m.raw = p.recv f sender m := by
  cases m with
  | EST r v => simp only [Msg.raw, recvRaw, bit_unbit]; rfl
  | AUX r v => simp only [Msg.raw, recvRaw, bit_unbit]; rfl
  | CONF r c => simp only [Msg.raw, recvRaw, mapM_bit_unbit]; rfl

/-- **a turn of the loop**: for bits it is one of `recv`; with anything else in their place the
assertion fails, as it does for the CONF message without a bit -/
theorem recvRaw_cases (f : ℕ) (sender : Fin n) (m : RawMsg) (p : Party n) :
    p.recvRaw f sender m = p ∨ ∃ m', p.recvRaw f sender m = p.recv f sender m' ∧
      (m'.wellFormed = true → m = m'.raw) := by
  have hfails : { p with recvLoop := .assertionError } = p.recv f sender (.CONF 0 []) := rfl
  have hbad : Msg.wellFormed (.CONF 0 []) = true → m = Msg.raw (.CONF 0 []) := fun h => by cases h
  cases m with
  | EST r v =>
    cases hv : bit v with
    | none => exact .inr ⟨.CONF 0 [], by simp only [recvRaw, hv]; exact hfails, hbad⟩
    | some b =>
      obtain rfl := unbit_of_bit hv
      exact .inr ⟨.EST r b, recvRaw_raw (.EST r b), fun _ => rfl⟩
  | AUX r v =>
    cases hv : bit v with
    | none => exact .inr ⟨.CONF 0 [], by simp only [recvRaw, hv]; exact hfails, hbad⟩
    | some b =>
      obtain rfl := unbit_of_bit hv
      exact .inr ⟨.AUX r b, recvRaw_raw (.AUX r b), fun _ => rfl⟩
  | CONF r v =>
    cases hv : v.mapM bit with
    | none => exact .inr ⟨.CONF 0 [], by simp only [recvRaw, hv]; exact hfails, hbad⟩
    | some c =>
      obtain rfl := map_unbit_of_mapM hv
      exact .inr ⟨.CONF r c, recvRaw_raw (.CONF r c), fun _ => rfl⟩
  | malformed => exact .inr ⟨.CONF 0 [], hfails, hbad⟩
  | other => exact .inl rfl

end

/-! ## one party -/

/-- a call that takes messages as they arrive -/
structure RawCall (f : ℕ) {n : ℕ} (nd : Node n (Party n) RawMsg) : Prop where
  call : Call f nd.st
  arrived : ∀ b m, nd.st.Entered b m → (b, m.raw) ∈ nd.rcvd

section
variable {n f : ℕ} {pid : Fin n} {nd : Node n (Party n) RawMsg}

theorem RawCall.recv (h : RawCall f nd) (hrun : nd.st.recvLoop = .running) (src : Fin n)
    (m : RawMsg) : RawCall f ⟨nd.st.recvRaw f src m, (src, m) :: nd.rcvd⟩ := by
  have hold : ∀ b m', nd.st.Entered b m' → (b, m'.raw) ∈ (src, m) :: nd.rcvd :=
    fun b m' hm => List.mem_cons_of_mem _ (h.arrived b m' hm)
  rcases recvRaw_cases f src m nd.st with he | ⟨m₁, he, hraw⟩
  · refine ⟨?_, fun b m' hm => hold b m' ?_⟩
    · show Call f (nd.st.recvRaw f src m)
      rw [he]
      exact h.call
    · rw [← he]
      exact hm
  · refine ⟨?_, fun b m' hm => ?_⟩
    · show Call f (nd.st.recvRaw f src m)
      rw [he]
      exact h.call.recv hrun src m₁
    · replace hm : (nd.st.recvRaw f src m).Entered b m' := hm
      rw [he] at hm
      rcases entered_recv hm with hm | ⟨rfl, rfl, hwf⟩
      · exact hold b m' hm
      · rw [← hraw hwf]
        exact List.mem_cons_self

theorem RawCall.act (h : RawCall f nd) {a : Party.Act} {x : Party n}
    (hx : nd.st.act f a = some x) : RawCall f ⟨x, nd.rcvd⟩ := by
  obtain ⟨hest, haux, hconf, -⟩ := act_tables hx
  refine ⟨h.call.act hx, fun b m hm => h.arrived b m ?_⟩
  cases m with
  | EST r v => rwa [Entered, hest] at hm
  | AUX r v => rwa [Entered, haux] at hm
  | CONF r c => rwa [Entered, hconf] at hm

theorem alone_rawCall (h : (rawProtocol n f).ReachableAlone pid nd) : RawCall f nd :=
  alone_invariant (RawCall f)
    ⟨Call.init, fun b m hm => by cases m <;> exact absurd hm (Finset.notMem_empty b)⟩
    (fun src m _ hnd hl => hnd.recv (of_decide_eq_true hl) src m)
    (fun _ _ _ hnd hx => hnd.act hx) h

end

/-! ## what a party broadcasts -/

def Msg.isAux (r : ℤ) : Msg → Bool
  | .AUX r' _ => r' = r
  | _ => false

def Msg.isConf (r : ℤ) : Msg → Bool
  | .CONF r' _ => r' = r
  | _ => false

/-- the messages of one kind are as many as the marks of their point -/
theorem countP_sent {n : ℕ} (p : Party n) (q : Msg → Bool) (x : ℤ × ℕ)
    (hq : ∀ o : Out, (∃ m, outMsg o = some m ∧ q m = true) ↔ o.mark = some x) :
    p.sent.countP q = p.marks.count x := by
  unfold sent marks
  rw [List.countP_filterMap, List.count, List.countP_filterMap]
  refine List.countP_congr fun o _ => ?_
  have hmsg : ((outMsg o).map q).getD false = true ↔ ∃ m, outMsg o = some m ∧ q m = true := by
    cases outMsg o <;> simp
  have hmark : ((o.mark).map (· == x)).getD false = true ↔ o.mark = some x := by
    cases o.mark <;> simp
  rw [hmsg, hmark]
  exact hq o

theorem isAux_iff (r : ℤ) (o : Out) :
    (∃ m, outMsg o = some m ∧ m.isAux r = true) ↔ o.mark = some (r, 2) := by
  cases o with
  | broadcast m => cases m <;> simp [outMsg, Out.mark, Msg.isAux]
  | _ => simp [outMsg, Out.mark]

theorem isConf_iff (r : ℤ) (o : Out) :
    (∃ m, outMsg o = some m ∧ m.isConf r = true) ↔ o.mark = some (r, 3) := by
  cases o with
  | broadcast m => cases m <;> simp [outMsg, Out.mark, Msg.isConf]
  | _ => simp [outMsg, Out.mark]

/-- what a call may have broadcast -/
structure Sending (f : ℕ) {n : ℕ} (nd : Node n (Party n) RawMsg) : Prop where
  est : ∀ r v, nd.st.sent.count (.EST r v) ≤ 1
  aux : ∀ r, nd.st.sent.countP (Msg.isAux r) ≤ 1
  conf : ∀ r, nd.st.sent.countP (Msg.isConf r) ≤ 1
  conf_keys : ∀ r c, .CONF r c ∈ nd.st.sent → c ∈ confKeys
  conf_single : ∀ r v, .CONF r [v] ∈ nd.st.sent →
    ∃ A : Finset (Fin n), n - f ≤ A.card ∧ ∀ i ∈ A, (i, .AUX r (unbit v)) ∈ nd.rcvd

theorem RawCall.sending {n f : ℕ} {nd : Node n (Party n) RawMsg} (h : RawCall f nd) :
    Sending f nd where
  est r v := List.nodup_iff_count_le_one.mp h.call.nodup (.EST r v)
  aux r := by
    rw [countP_sent nd.st (Msg.isAux r) (r, 2) (isAux_iff r)]
    exact List.nodup_iff_count_le_one.mp h.call.ordered.nodup (r, 2)
  conf r := by
    rw [countP_sent nd.st (Msg.isConf r) (r, 3) (isConf_iff r)]
    exact List.nodup_iff_count_le_one.mp h.call.ordered.nodup (r, 3)
  conf_keys r c hc := of_decide_eq_true (sent_wellFormed h.call hc)
  conf_single r v hc := by
    obtain ⟨B, -, -, hB, hA⟩ := h.call.backed _ (mem_sent.mp hc)
    exact ⟨nd.st.auxValues r v, hA v (singleton_of_conf hB), fun i hi => h.arrived i (.AUX r v) hi⟩

/-! ## the network -/

section
variable {C : Committee} {ok : Net C.N (Party C.N) RawMsg → Label C.N RawMsg Party.Act → Prop}
  {s : Net C.N (Party C.N) RawMsg} {dst src : Fin C.N} {m : RawMsg}

theorem raw_injective : Function.Injective Msg.raw := by
  intro m m' h
  have hunbit : ∀ b b', unbit b = unbit b' → b = b' := by decide
  cases m <;> cases m' <;> simp only [Msg.raw, RawMsg.EST.injEq, RawMsg.AUX.injEq,
    RawMsg.CONF.injEq, reduceCtorEq] at h
  · rw [h.1, hunbit _ _ h.2]
  · rw [h.1, hunbit _ _ h.2]
  · rw [h.1, List.map_injective_iff.mpr hunbit h.2]

/-- what is in the channel of an honest party was sent by it, and is not in the table yet -/
theorem pending_fresh (h : (rawProtocol C.N C.f).Reachable (fun _ => true) ok s)
    (hsrc : C.Honest src)
    (hp : (rawProtocol C.N C.f).pending (fun _ => true) s dst src m = true) :
    ∃ m', m = m'.raw ∧ m'.wellFormed = true ∧ ¬ (s dst).st.Entered src m' := by
  have hcall := (alone_rawCall (reach_alone h src)).call
  have hlt : (s dst).rcvd.count (src, m) < ((s src).st.sent.map Msg.raw).count m :=
    pending_honest hsrc hp
  obtain ⟨m', hm', rfl⟩ := List.mem_map.mp (List.count_pos_iff.mp (Nat.zero_lt_of_lt hlt))
  refine ⟨m', rfl, sent_wellFormed hcall hm', fun hent => ?_⟩
  have hpos := List.count_pos_iff.mpr ((alone_rawCall (reach_alone h dst)).arrived src m' hent)
  have hone := List.nodup_iff_count_le_one.mp (hcall.nodup.map raw_injective) m'.raw
  omega

end

/-- **honest senders are never redundant**: whatever arrives, a call broadcasts no EST message
twice, one AUX and one CONF message in a round, and a CONF message with one bit on `N-f` AUX
messages; and in a network that does not duplicate, an honest call takes in every message of every
honest party -/
theorem never_rejected :
    (∀ n f pid (nd : Node n (Party n) RawMsg), (rawProtocol n f).ReachableAlone pid nd →
      Sending f nd) ∧
    ∀ (C : Committee) (ok : Net C.N (Party C.N) RawMsg → Label C.N RawMsg Party.Act → Prop)
      (s t : Net C.N (Party C.N) RawMsg) (dst src : Fin C.N) (m : RawMsg),
      (rawProtocol C.N C.f).Reachable (fun _ => true) ok s → C.Honest src →
      (rawProtocol C.N C.f).next (fun _ => true) s (.deliver dst src m) = some t →
      (t dst).st.recvLoop = .running ∧ ∃ m', m = m'.raw ∧ (t dst).st.Entered src m' := by
  refine ⟨fun n f pid nd h => (alone_rawCall h).sending, fun C ok s t dst src m h hsrc hn => ?_⟩
  simp only [Protocol.next] at hn
  split at hn
  · next hg =>
    obtain ⟨m', rfl, hwf, hnew⟩ := pending_fresh h hsrc hg.2.2
    obtain ⟨hloop, hent⟩ := recv_entered C.f hnew hwf
    rw [← Option.some.inj hn, Function.update_self]
    show ((s dst).st.recvRaw C.f src m'.raw).recvLoop = .running ∧
      ∃ m'', m'.raw = m''.raw ∧ ((s dst).st.recvRaw C.f src m'.raw).Entered src m''
    rw [recvRaw_raw]
    exact ⟨hloop.trans (of_decide_eq_true hg.2.1), m', rfl, hent⟩
  · cases hn

/-- three honest parties with the input 1 come to the CONF phase, and the Byzantine one sends what it
likes -/
def rawRun : List (Label four.N RawMsg Party.Act) :=
  let all : List (Fin four.N) := [0, 1, 2]
  let arrives (m : RawMsg) : List (Label four.N RawMsg Party.Act) :=
    all.flatMap fun dst => all.map fun src => .deliver dst src m
  let goes : List (Label four.N RawMsg Party.Act) := all.map fun p => .act p .main
  all.map (fun p => .act p (.input true)) ++ goes ++
    [.deliver 1 3 .other, .deliver 1 3 (.EST (-4) 0)] ++
    arrives (.EST 0 1) ++ goes ++ arrives (.AUX 0 1) ++ goes

set_option maxRecDepth 100000 in
theorem never_rejected_four : ∃ s t : Net four.N (Party four.N) RawMsg,
    .CONF 0 [true] ∈ (s 0).st.sent ∧ Sending four.f (s 0) ∧
    (rawProtocol four.N four.f).next (fun _ => true) s (.deliver 1 0 (.CONF 0 [1])) = some t ∧
    (t 1).st.recvLoop = .running := by
  have hrun : (Trans.exec ((rawProtocol four.N four.f).next fun _ => true) (fun _ _ => true)
      (rawProtocol four.N four.f).start rawRun).any (fun s =>
        decide (.CONF 0 [true] ∈ (s 0).st.sent) &&
          ((rawProtocol four.N four.f).next (fun _ => true) s (.deliver 1 0 (.CONF 0 [1]))).any
            fun _ => decide True) = true := by decide
  obtain ⟨s, t, hs, hn, hsent, -⟩ := exists_step_of_exec (fun _ _ _ => trivial) hrun
  obtain ⟨hsending, hloop⟩ := never_rejected
  exact ⟨s, t, hsent, hsending _ _ _ _ (reach_alone hs 0), hn,
    (hloop four (fun _ _ => True) s t 1 0 _ hs (by decide) hn).1⟩

end BA
