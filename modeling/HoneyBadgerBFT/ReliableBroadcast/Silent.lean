import HoneyBadgerBFT.ReliableBroadcast.Settled

/-!
# Reliable broadcast: runs in which the Byzantine parties are silent

A call sends at most three messages to each party, so every run goes on to a settled state.  When
only messages of honest parties arrive, the calls hash nothing but the strings of the leader's tree,
and for an input whose blocks `decode` and `encode` give back every honest call returns what they
decode to (`silent_run`).
-/

namespace RBC
open Async Trans Party

variable {C : Committee} {S : Setup C}

/-! ## one turn of the loop -/

/-- the strings that the message `msg` from `src` makes the party `pid` hash -/
def msgHashed (S : Setup C) (pid src : Fin C.N) : Msg → List Bytes
  | .VAL _ br x => if src = S.leader then verifyHashed S.H C.N x br pid else []
  | .ECHO _ br x => verifyHashed S.H C.N x br src
  | .READY _ => []

/-- the string `y` was hashed by `decode_output` -/
def FromOutput (S : Setup C) (p : Party C.N) (y : Bytes) : Prop :=
  p.status ≠ .input ∧ p.status ≠ .running ∧ ∃ r v code, p.Complete r ∧
    decode S.zfec (p.stripes r) = some v ∧ encode S.zfec (.bytes v) = some code ∧
    y ∈ treeHashed S.H code

/-- the messages that the loop has sent to each party -/
def Party.loopSent {n : ℕ} (p : Party n) : ℕ :=
  (if p.fromLeader = none then 0 else 1) + if p.readySent = true then 1 else 0

/-- what a turn does to the input, the outboxes and the hashed strings; `xs`: hashed in it, but for
`decode_output` -/
structure Turn (S : Setup C) (xs : List Bytes) (p p' : Party C.N) : Prop where
  m : p'.m = p.m
  outbox : ∀ q, (p'.sent q).length + p.loopSent ≤ (p.sent q).length + p'.loopSent
  hashed : ∀ y ∈ p'.hashed, y ∈ p.hashed ∨ y ∈ xs ∨ FromOutput S p' y

theorem Turn.skip (xs : List Bytes) (p : Party C.N) : Turn S xs p p :=
  ⟨rfl, fun _ => le_refl _, fun _ hy => .inl hy⟩

theorem Turn.hash (xs : List Bytes) (p : Party C.N) : Turn S xs p (p.hash xs) := by
  refine ⟨rfl, fun _ => le_refl _, fun y hy => ?_⟩
  rcases List.mem_append.mp hy with hy | hy
  · exact .inr (.inl hy)
  · exact .inl hy

theorem decodeOutput_hashed (r : Bytes) (p : Party C.N) :
    ∀ y ∈ (p.decodeOutput S r).hashed, y ∈ p.hashed ∨ ∃ v code,
      decode S.zfec (p.stripes r) = some v ∧ encode S.zfec (.bytes v) = some code ∧
        y ∈ treeHashed S.H code := by
  intro y
  unfold Party.decodeOutput
  split
  · exact .inl
  · next v hv =>
    split
    · exact .inl
    · next code hcode =>
      intro hy
      have hmem : y ∈ treeHashed S.H code ++ p.hashed := by
        dsimp only at hy
        split at hy <;> exact hy
      rcases List.mem_append.mp hmem with hmem | hmem
      · exact .inr ⟨v, code, hv, hcode, hmem⟩
      · exact .inl hmem

theorem tryOutput_hashed (r : Bytes) (p : Party C.N) :
    ∀ y ∈ (p.tryOutput S r).hashed, y ∈ p.hashed ∨ FromOutput S (p.tryOutput S r) y := by
  intro y hy
  unfold tryOutput at hy ⊢
  split at hy
  · next hc =>
    rw [if_pos hc]
    rcases decodeOutput_hashed r p y hy with hy | ⟨v, code, hv, hcode, hy⟩
    · exact .inl hy
    · have hs := decodeOutput_same S r p
      have hend : (p.decodeOutput S r).status ≠ .input ∧ (p.decodeOutput S r).status ≠ .running := by
        rcases decodeOutput_cases S r p with ⟨m, h, -⟩ | ⟨h, -⟩ <;> rw [h] <;>
          exact ⟨(fun h => by cases h), (fun h => by cases h)⟩
      refine .inr ⟨hend.1, hend.2, r, v, code, ?_, by rwa [hs.stripes], hcode, hy⟩
      unfold Complete
      rwa [hs.ready, hs.echoCounter]
  · exact .inl hy

/-- a turn that ends with the test for the output -/
theorem Turn.tryOutput {xs : List Bytes} {p p' : Party C.N} (h : Turn S xs p p')
    (hh : ∀ y ∈ p'.hashed, y ∈ p.hashed ∨ y ∈ xs) (r : Bytes) :
    Turn S xs p (p'.tryOutput S r) := by
  have hs := tryOutput_same S r p'
  refine ⟨hs.m.trans h.m, fun q => ?_, fun y hy => ?_⟩
  · unfold loopSent
    rw [hs.sent, hs.fromLeader, hs.readySent]
    exact h.outbox q
  · rcases tryOutput_hashed r p' y hy with hy | hy
    · exact (hh y hy).imp_right .inl
    · exact .inr (.inr hy)

/-- READY goes out once -/
theorem sendReady_outbox {n : ℕ} (r : Bytes) (p : Party n) (c : Prop) [Decidable c] (q : Fin n) :
    ((if c ∧ p.readySent = false then p.sendReady r else p).sent q).length + p.loopSent ≤
      (p.sent q).length + (if c ∧ p.readySent = false then p.sendReady r else p).loopSent := by
  split
  · next h =>
    unfold loopSent sendReady broadcast
    rw [h.2]
    simp only [List.length_cons]
    simp
    omega
  · exact le_refl _

theorem recv_turn (pid src : Fin C.N) (msg : Msg) (p : Party C.N) :
    Turn S (msgHashed S pid src msg) p (p.recv S pid src msg) := by
  cases msg with
  | VAL r br x =>
    show Turn S _ p (p.recvVal S pid src r br x)
    unfold Party.recvVal
    split
    · exact Turn.skip _ p
    · next hfl =>
      split
      · exact Turn.skip _ p
      · next hsrc =>
        rw [msgHashed, if_pos (not_not.mp hsrc)]
        have ht := Turn.hash (S := S) (verifyHashed S.H C.N x br pid) p
        dsimp only
        split
        · refine ⟨ht.m, fun q => ?_, ht.hashed⟩
          show (p.sent q).length + 1 + p.loopSent ≤
            (p.sent q).length + (1 + if p.readySent = true then 1 else 0)
          rw [loopSent, if_pos (not_not.mp hfl)]
          omega
        · exact ht
  | ECHO r br x =>
    show Turn S _ p (p.recvEcho S src r br x)
    unfold Party.recvEcho
    split
    · exact Turn.skip _ p
    · have ht := Turn.hash (S := S) (verifyHashed S.H C.N x br src) p
      dsimp only
      split
      · have hold : ∀ y ∈ verifyHashed S.H C.N x br src ++ p.hashed,
            y ∈ p.hashed ∨ y ∈ verifyHashed S.H C.N x br src :=
          fun y hy => (List.mem_append.mp hy).symm
        refine Turn.tryOutput ⟨?_, fun q => ?_, fun y hy => (hold y ?_).imp_right .inl⟩
          (fun y hy => hold y ?_) r
        · split <;> rfl
        · exact sendReady_outbox r ((p.hash (verifyHashed S.H C.N x br src)).addEcho src r x) _ q
        · split at hy <;> exact hy
        · split at hy <;> exact hy
      · exact ht
  | READY r =>
    show Turn S _ p (p.recvReady S src r)
    unfold Party.recvReady
    split
    · exact Turn.skip _ p
    · dsimp only
      refine Turn.tryOutput ⟨?_, fun q => ?_, fun y hy => .inl ?_⟩ (fun y hy => .inl ?_) r
      · split <;> rfl
      · exact sendReady_outbox r (p.addReady src r) _ q
      · split at hy <;> exact hy
      · split at hy <;> exact hy

/-! ## the origin of what is hashed -/

structure Origin (S : Setup C) (pid : Fin C.N) (nd : PNode C) : Prop where
  outbox : ∀ q, (nd.st.sent q).length ≤ (if nd.st.m = none then 0 else 1) + nd.st.loopSent
  hashed : ∀ y ∈ nd.st.hashed,
    (∃ m code, nd.st.m = some m ∧ encode S.zfec m = some code ∧ y ∈ treeHashed S.H code) ∨
    (∃ src msg, (src, msg) ∈ nd.rcvd ∧ y ∈ msgHashed S pid src msg) ∨ FromOutput S nd.st y

variable {pid : Fin C.N} {p : Party C.N} {l : List (Fin C.N × Msg)}

theorem Origin.recv (h : Origin S pid ⟨p, l⟩) (hrun : p.status = .running) (src : Fin C.N)
    (msg : Msg) : Origin S pid ⟨p.recv S pid src msg, (src, msg) :: l⟩ := by
  have ht := recv_turn (S := S) pid src msg p
  refine ⟨fun q => ?_, fun y hy => ?_⟩
  · have h1 := h.outbox q
    have h2 := ht.outbox q
    show ((p.recv S pid src msg).sent q).length ≤ (if (p.recv S pid src msg).m = none then 0 else 1) +
      (p.recv S pid src msg).loopSent
    rw [ht.m]
    dsimp only at h1
    omega
  · show (∃ m code, (p.recv S pid src msg).m = some m ∧ _) ∨ _
    rw [ht.m]
    rcases ht.hashed y hy with hy | hy | hy
    · rcases h.hashed y hy with hy | ⟨src', msg', hmem, hy⟩ | hy
      · exact .inl hy
      · exact .inr (.inl ⟨src', msg', List.mem_cons_of_mem _ hmem, hy⟩)
      · exact absurd hrun hy.2.1
    · exact .inr (.inl ⟨src, msg, List.mem_cons_self, hy⟩)
    · exact .inr (.inr hy)

theorem Origin.start (h : Origin S pid ⟨p, l⟩) (hin : p.status = .input) (hm : p.m = none)
    (m : Text) : Origin S pid ⟨p.start S m, l⟩ := by
  have hold : ∀ y ∈ p.hashed, ∃ src msg, (src, msg) ∈ l ∧ y ∈ msgHashed S pid src msg := by
    intro y hy
    rcases h.hashed y hy with ⟨m', _, hm', -⟩ | hy | hy
    · cases hm.symm.trans hm'
    · exact hy
    · exact absurd hin hy.1
  unfold Party.start
  split
  · exact ⟨h.outbox, fun y hy => .inr (.inl (hold y hy))⟩
  · next code hcode =>
    refine ⟨fun q => ?_, fun y hy => ?_⟩
    · have h1 := h.outbox q
      show (p.sent q).length + 1 ≤ 1 + p.loopSent
      dsimp only at h1
      rw [hm, if_pos rfl] at h1
      omega
    · rcases List.mem_append.mp hy with hy | hy
      · exact .inl ⟨m, code, rfl, hcode, hy⟩
      · exact .inr (.inl (hold y hy))

variable {s : State C}

theorem reached_origin {ok : State C → Label C.N Msg Text → Prop}
    (h : (protocol S).Reachable (fun _ => true) ok s) :
    ∀ p, C.Honest p → Call S p (s p) ∧ Origin S p (s p) := by
  refine node_invariant (fun p nd => Call S p nd ∧ Origin S p nd) ?_ ?_ ?_ h
  · exact fun p _ => ⟨Call.init, fun q => Nat.zero_le _, fun _ h => by cases h⟩
  · rintro p src msg nd _ ⟨hc, ho⟩ hl
    have hrun := of_decide_eq_true hl
    exact ⟨hc.recv hrun src msg, ho.recv hrun src msg⟩
  · rintro p m nd x _ ⟨hc, ho⟩ hx
    obtain ⟨hin, rfl⟩ := act_cases hx
    exact ⟨hc.start hin m, ho.start hin (hc.outcome.input hin).2 m⟩

/-- a call sends at most a VAL, an ECHO and a READY message to a party -/
theorem sent_le {ok : State C → Label C.N Msg Text → Prop}
    (h : (protocol S).Reachable (fun _ => true) ok s) {p : Fin C.N} (hp : C.Honest p) (q : Fin C.N) :
    ((s p).st.sent q).length ≤ 3 := by
  refine ((reached_origin h p hp).2.outbox q).trans ?_
  unfold loopSent
  split <;> split <;> split <;> omega

/-! ## silent runs -/

/-- only messages of honest parties arrive -/
def Silent (_ : State C) (e : Label C.N Msg Text) : Prop :=
  ∀ dst src msg, e = .deliver dst src msg → C.Honest src

section
variable (h : (protocol S).Reachable (fun _ => true) Silent s)
include h

theorem reached_of_silent : Reached S s := Reach.mono (fun _ _ _ => trivial) h

theorem heard_honest : ∀ p src msg, (src, msg) ∈ (s p).rcvd → C.Honest src := by
  refine Reach.invariant (fun s => ∀ p src msg, (src, msg) ∈ (s p).rcvd → C.Honest src) ?_ h ?_
  · intro s e t hs hok hn p src msg hmem
    rcases next_at hn p with heq | ⟨src', msg', rfl, -, -, -, heq⟩ | ⟨a, x, -, -, -, heq⟩ <;>
      rw [heq] at hmem
    · exact hs p src msg hmem
    · rcases List.mem_cons.mp hmem with hnew | hold
      · obtain ⟨rfl, -⟩ := Prod.mk.inj hnew
        exact hok _ _ _ rfl
      · exact hs p src msg hold
    · exact hs p src msg hmem
  · intro p src msg hmem
    cases hmem

variable (hl : C.Honest S.leader) (hN : C.N ≤ 256) {m : Text} {code : List Bytes}
  (hm : (s S.leader).st.m = some m) (hcode : encode S.zfec m = some code)
include hl hm hcode

/-- the stripes of a silent run are those of the leader's codeword -/
theorem partOf_of_silent {p : Fin C.N} (hp : C.Honest p) (r : Bytes) :
    PartOf ((s p).st.stripes r) code := by
  intro i x hx
  have hr := reached_of_silent h
  obtain ⟨br, hmem, -⟩ := (reached_call S hr p hp).tables.stripe r i x hx
  have hi := heard_honest h p i _ hmem
  have hsent := authentic monotone hr p hp i _ hmem
  rw [if_pos hi] at hsent
  obtain ⟨m', code', hm', hcode', -, -, rfl⟩ := val_of_echo hr hl hi hsent
  obtain rfl := Option.some.inj (hm.symm.trans hm')
  obtain rfl := Option.some.inj (hcode.symm.trans hcode')
  rfl

include hN

/-- verifying a message of a silent run hashes strings of the tree -/
theorem msgHashed_of_silent {p src : Fin C.N} (hp : C.Honest p) {msg : Msg}
    (hmem : (src, msg) ∈ (s p).rcvd) : ∀ y ∈ msgHashed S p src msg, y ∈ treeHashed S.H code := by
  have hr := reached_of_silent h
  have hsrc := heard_honest h p src msg hmem
  have hsent := authentic monotone hr p hp src msg hmem
  rw [if_pos hsrc] at hsent
  have hlen := code_length hN hcode
  have hbranch : ∀ q : Fin C.N, verifyHashed S.H C.N (code.getD q [])
      (getMerkleBranch q (merkleTree S.H code)) q ⊆ treeHashed S.H code := by
    intro q
    have := verifyHashed_complete S.H (show q.val < code.length by rw [hlen]; exact q.isLt)
    rwa [hlen] at this
  cases msg with
  | VAL r br x =>
    obtain ⟨rfl, m', code', hm', hcode', -, rfl, rfl⟩ :=
      (reached_call S hr src hsrc).sends.val p r br x hsent
    obtain rfl := Option.some.inj (hm.symm.trans hm')
    obtain rfl := Option.some.inj (hcode.symm.trans hcode')
    intro y hy
    rw [msgHashed, if_pos rfl] at hy
    exact hbranch p hy
  | ECHO r br x =>
    obtain ⟨m', code', hm', hcode', -, rfl, rfl⟩ := val_of_echo hr hl hsrc hsent
    obtain rfl := Option.some.inj (hm.symm.trans hm')
    obtain rfl := Option.some.inj (hcode.symm.trans hcode')
    exact fun y hy => hbranch src hy
  | READY r =>
    intro y hy
    cases hy

variable {b w v w' : Bytes} (hb : m.toBytes = some b) (hw : padded (C.N - 2 * C.f) b = some w)
  (hv : unsplit (C.N - 2 * C.f) w = some v) (hw' : padded (C.N - 2 * C.f) v = some w')
  (hsame : split (C.N - 2 * C.f) w' = split (C.N - 2 * C.f) w)
include hb hw hv

/-- what a silent run decodes -/
theorem decode_of_silent {p : Fin C.N} (hp : C.Honest p) {r : Bytes} (hc : (s p).st.Complete r) :
    decode S.zfec ((s p).st.stripes r) = some v := by
  have hpart := partOf_of_silent h hl hm hcode hp r
  obtain ⟨_, _, hb', hw', rfl⟩ := encode_eq_some hcode
  obtain rfl := Option.some.inj (hb.symm.trans hb')
  obtain rfl := Option.some.inj (hw.symm.trans hw')
  obtain ⟨_, hw2, hle⟩ := padded_of_le (K_pos C) (by omega) b
  obtain rfl := Option.some.inj (hw.symm.trans hw2)
  rw [decode_codeword S.zfec (K_pos C) hle hpart, if_pos, hv]
  rw [← (reached_call S (reached_of_silent h) p hp).tables.counter]
  exact hc.2

omit h hl hm hv in
/-- the same blocks make the same codeword -/
theorem encode_of_split (hw' : padded (C.N - 2 * C.f) v = some w')
    (hsame : split (C.N - 2 * C.f) w' = split (C.N - 2 * C.f) w) :
    encode S.zfec (.bytes v) = some code := by
  obtain ⟨_, _, hb', hw2, rfl⟩ := encode_eq_some hcode
  obtain rfl := Option.some.inj (hb.symm.trans hb')
  obtain rfl := Option.some.inj (hw.symm.trans hw2)
  rw [encode_bytes S.zfec (by omega) (m := .bytes v) rfl hw', hsame]

include hw' hsame

/-- **a silent run hashes the leader's tree and nothing else** -/
theorem hashed_of_silent : hashedIn s ⊆ {y | y ∈ treeHashed S.H code} := by
  rintro y ⟨p, hp, hy⟩
  have hr := reached_of_silent h
  obtain ⟨hcall, ho⟩ := reached_origin h p hp
  rcases ho.hashed y hy with ⟨m', code', hm', hcode', hy⟩ | ⟨src, msg, hmem, hy⟩ | hy
  · obtain ⟨_, -, -, hval⟩ := hcall.sends.val_sent m' hm'
    obtain ⟨rfl, -⟩ := hcall.sends.val _ _ _ _ (hval p)
    obtain rfl := Option.some.inj (hm.symm.trans hm')
    obtain rfl := Option.some.inj (hcode.symm.trans hcode')
    exact hy
  · exact msgHashed_of_silent h hl hN hm hcode hp hmem y hy
  · obtain ⟨-, -, r, v', code', hc, hd, hcode', hy⟩ := hy
    rw [decode_of_silent h hl hN hm hcode hb hw hv hp hc] at hd
    obtain rfl := Option.some.inj hd
    rw [encode_of_split hN hcode hb hw hw' hsame] at hcode'
    obtain rfl := Option.some.inj hcode'
    exact hy

end

/-- the leader keeps its input -/
theorem input_kept {ok : State C → Label C.N Msg Text → Prop} {t : State C}
    (h : Reached S s) (hl : C.Honest S.leader) {m : Text} (hm : (s S.leader).st.m = some m)
    (ht : Reach ((protocol S).next fun _ => true) ok s t) : (t S.leader).st.m = some m := by
  refine Reach.invariant_of_reach (fun t => (t S.leader).st.m = some m) ?_ ht hm
  intro a e u ha hma _ hn
  have hra : Reached S a := Reach.trans h (Reach.mono (fun _ _ _ => trivial) ha)
  rcases next_at hn S.leader with heq | ⟨src, msg, -, -, -, -, heq⟩ | ⟨m', x, -, -, hx, heq⟩ <;>
    rw [heq]
  · exact hma
  · exact (recv_turn _ src msg _).m.trans hma
  · obtain ⟨hin, -⟩ := act_cases hx
    have hno := ((reached_call S hra _ hl).outcome.input hin).2
    cases hno.symm.trans hma

/-- **a run to the end**: for an input whose blocks decode to bytes `v` with the same blocks, there
is a run in which all honest calls return `v` and nothing but the leader's tree is hashed -/
theorem exists_returned (hN : C.N ≤ 256) (hl : C.Honest S.leader) {m : Text} {b w v w' : Bytes}
    (hb : m.toBytes = some b) (hw : padded (C.N - 2 * C.f) b = some w)
    (hv : unsplit (C.N - 2 * C.f) w = some v) (hw' : padded (C.N - 2 * C.f) v = some w')
    (hsame : split (C.N - 2 * C.f) w' = split (C.N - 2 * C.f) w)
    (hinj : Set.InjOn S.H.hash {y | y ∈ treeHashed S.H (S.zfec.encode (split (C.N - 2 * C.f) w))}) :
    ∃ s, Reached S s ∧ (s S.leader).st.m = some m ∧ Set.InjOn S.H.hash (hashedIn s) ∧
      ∀ q, C.Honest q → (s q).st.status = .returned v := by
  have hcode : encode S.zfec m = some (S.zfec.encode (split (C.N - 2 * C.f) w)) :=
    encode_bytes S.zfec (by omega) hb hw
  set code := S.zfec.encode (split (C.N - 2 * C.f) w) with hcodedef
  -- the leader gets its input
  have hstart : (protocol S).next (fun _ => true) (protocol S).start (.act S.leader m) =
      some (Function.update (protocol S).start S.leader
        ⟨((protocol S).init S.leader).start S m, []⟩) := by
    have hact : (protocol S).act S.leader m ((protocol S).init S.leader) =
        some (((protocol S).init S.leader).start S m) := if_pos (if_pos rfl)
    rw [Protocol.next, if_pos hl]
    show Option.map _ ((protocol S).act S.leader m ((protocol S).init S.leader)) = _
    rw [hact]
    rfl
  generalize hs1 : Function.update (protocol S).start S.leader
    ⟨((protocol S).init S.leader).start S m, []⟩ = s1 at hstart
  have hr1 : (protocol S).Reachable (fun _ => true) Silent s1 :=
    Reach.tail (Reach.refl _) ⟨.act S.leader m, (fun _ _ _ h => by cases h), hstart⟩
  have hm1 : (s1 S.leader).st.m = some m := by
    rw [← hs1, Function.update_self]
    simp only [Party.start, hcode]
  -- and every message is delivered
  obtain ⟨t, ht, hdone⟩ := exists_drained grows (fun s hs p hp q => sent_le hs hp q)
    (fun s dst src msg hsrc _ _ _ e => by
      obtain ⟨-, rfl, -⟩ := Label.deliver.inj e
      exact hsrc) hr1
  have hrt : (protocol S).Reachable (fun _ => true) Silent t := hr1.trans ht
  have hr := reached_of_silent hrt
  have hm := input_kept (reached_of_silent hr1) hl hm1 ht
  have hinjt : Set.InjOn S.H.hash (hashedIn t) :=
    hinj.mono (hashed_of_silent hrt hl hN hm hcode hb hw hv hw' hsame)
  have henc := encode_of_split hN hcode hb hw hw' hsame
  have hdec : ∀ q, C.Honest q → ∀ r, (t q).st.Complete r →
      decode S.zfec ((t q).st.stripes r) = some v :=
    fun q hq r hc => decode_of_silent hrt hl hN hm hcode hb hw hv hq hc
  refine ⟨t, hr, hm, hinjt, all_returned hr (fun q hq => ?_) hN hinjt hl hm hcode henc hdec⟩
  rcases hdone q hq with hstop | hdel
  · have hout := (reached_call S hr q hq).outcome
    have hrun : (t q).st.status ≠ .running := of_decide_eq_false hstop
    cases hst : (t q).st.status with
    | input =>
      obtain ⟨rfl, hno⟩ := hout.input hst
      cases hno.symm.trans hm
    | running => exact absurd hst hrun
    | returned v' => exact .inl ⟨v', hst⟩
    | raised =>
      rcases hout.raised hst with ⟨rfl, hno⟩ | ⟨r, hc, hno⟩
      · cases hno.symm.trans hm
      · obtain rfl := root_eq hm hcode (root_of_complete hr hl hq hc)
        exact absurd ⟨hdec q hq _ hc, code, henc, rfl⟩ (hno v)
  · exact .inr hdel

end RBC
