import HoneyBadgerBFT.ReliableBroadcast.Broadcast

/-!
# Reliable broadcast: the tables stay in step

One call on its own, with any messages from any senders (`ReachableAlone`).

* `Once`                    it sends one READY when `readySent` is set, and one ECHO when `fromLeader`
                            is;
* `recv_output`             a turn of the loop that calls `decode_output` has the stripes for it;
* `bookkeeping`             the tables and the messages that are sent, in every state.
-/

namespace RBC
open Async Party Trans

variable {C : Committee} {S : Setup C} {pid : Fin C.N} {p p' : Party C.N}
  {l : List (Fin C.N × Msg)}

/-! ## the messages that are sent -/

def Msg.isEcho : Msg → Bool
  | .ECHO .. => true
  | _ => false

def Msg.isReady : Msg → Bool
  | .READY _ => true
  | _ => false

/-- how many ECHO and READY messages each party has been sent -/
structure Once (p : Party C.N) : Prop where
  echo : ∀ q, (p.sent q).countP Msg.isEcho = if p.fromLeader = none then 0 else 1
  ready : ∀ q, (p.sent q).countP Msg.isReady = if p.readySent = false then 0 else 1

theorem Once.congr (h : Once p) (hsent : p'.sent = p.sent) (hfrom : p'.fromLeader = p.fromLeader)
    (hready : p'.readySent = p.readySent) : Once p' := by
  refine ⟨fun q => ?_, fun q => ?_⟩
  · rw [hsent, hfrom]
    exact h.echo q
  · rw [hsent, hready]
    exact h.ready q

theorem Once.sendReady (h : Once p) (hno : p.readySent = false) (r : Bytes) :
    Once (p.sendReady r) := by
  refine ⟨fun q => (List.countP_cons_of_neg Bool.false_ne_true).trans (h.echo q), fun q => ?_⟩
  have hzero := h.ready q
  rw [if_pos hno] at hzero
  exact (List.countP_cons_of_pos rfl).trans (congrArg Nat.succ hzero)

theorem Once.sendEcho (h : Once p) (hnone : p.fromLeader = none) (r : Bytes) (br : List Bytes)
    (x : Bytes) : Once ({ p with fromLeader := some r }.broadcast (.ECHO r br x)) := by
  refine ⟨fun q => ?_, fun q => (List.countP_cons_of_neg Bool.false_ne_true).trans (h.ready q)⟩
  have hzero := h.echo q
  rw [if_pos hnone] at hzero
  exact (List.countP_cons_of_pos rfl).trans (congrArg Nat.succ hzero)

/-- the end of a turn: READY may be sent, and the call may return -/
theorem Once.finish (h : Once p) (r : Bytes) {c : Prop} [Decidable c] :
    Once ((if c ∧ p.readySent = false then p.sendReady r else p).tryOutput S r) := by
  have hsame := tryOutput_same S r (if c ∧ p.readySent = false then p.sendReady r else p)
  refine Once.congr ?_ hsame.sent hsame.fromLeader hsame.readySent
  split
  · next hc => exact h.sendReady hc.2 r
  · exact h

theorem Once.recv (h : Once p) (src : Fin C.N) (m : Msg) : Once (p.recv S pid src m) := by
  cases m with
  | VAL r br x =>
    show Once (p.recvVal S pid src r br x)
    unfold Party.recvVal
    split
    · exact h
    · next hfrom =>
      split
      · exact h
      · dsimp only
        split
        · exact (show Once (p.hash _) from h.congr rfl rfl rfl).sendEcho (not_not.mp hfrom) r br x
        · exact h.congr rfl rfl rfl
  | ECHO r br x =>
    show Once (p.recvEcho S src r br x)
    unfold Party.recvEcho
    split
    · exact h
    · dsimp only
      split
      · exact (show Once ((p.hash _).addEcho src r x) from h.congr rfl rfl rfl).finish r
      · exact h.congr rfl rfl rfl
  | READY r =>
    show Once (p.recvReady S src r)
    unfold Party.recvReady
    split
    · exact h
    · exact (show Once (p.addReady src r) from h.congr rfl rfl rfl).finish r

theorem Once.start (h : Once p) (m : Text) : Once (p.start S m) := by
  unfold Party.start
  split
  · exact h.congr rfl rfl rfl
  · exact ⟨fun q => (List.countP_cons_of_neg Bool.false_ne_true).trans (h.echo q),
      fun q => (List.countP_cons_of_neg Bool.false_ne_true).trans (h.ready q)⟩

/-! ## the call of `decode_output` -/

/-- enough stripes are found -/
theorem collect_isSome {K : ℕ} (l : List (Option Bytes)) : ∀ (i : ℕ) (blocks : List Bytes)
    (nums : List ℕ), blocks.length < K → K ≤ blocks.length + l.countP Option.isSome →
      ∃ picked, collect K l i blocks nums = some picked := by
  induction l with
  | nil =>
    intro i blocks nums hlt hle
    rw [List.countP_nil] at hle
    omega
  | cons a l ih =>
    intro i blocks nums hlt hle
    cases a with
    | none =>
      rw [List.countP_cons_of_neg Bool.false_ne_true] at hle
      exact ih (i + 1) blocks nums hlt hle
    | some b =>
      have hlen : (blocks ++ [b]).length = blocks.length + 1 := List.length_append
      rw [List.countP_cons_of_pos rfl] at hle
      rw [collect]
      by_cases hK : (blocks ++ [b]).length = K
      · rw [if_pos hK]
        exact ⟨_, rfl⟩
      · rw [if_neg hK]
        exact ih (i + 1) _ _ (by omega) (by omega)

/-- what `decode` needs: the tables of the call, at the moment at which it is called -/
structure Output (S : Setup C) (pid : Fin C.N) (nd : PNode C) (h : Bytes) : Prop where
  tables : Tables S pid nd
  running : nd.st.status = .running
  complete : nd.st.Complete h
  stripes : C.N - 2 * C.f ≤ (present (nd.st.stripes h)).card
  recovers : ∃ picked,
    collect (C.N - 2 * C.f) (List.ofFn (nd.st.stripes h)) 0 [] [] = some picked

theorem output_of_complete (htab : Tables S pid ⟨p, l⟩) (hrun : p.status = .running) {h : Bytes}
    (hc : p.Complete h) : Output S pid ⟨p, l⟩ h := by
  have hle : C.N - 2 * C.f ≤ (present (p.stripes h)).card := htab.counter h ▸ hc.2
  have hpos : 0 < C.N - 2 * C.f := by
    have := C.resilient
    omega
  refine ⟨htab, hrun, hc, hle, collect_isSome _ 0 [] [] hpos ?_⟩
  rw [countP_ofFn, List.length_nil, Nat.zero_add]
  exact hle

/-- the end of a turn -/
theorem finish_output (htab : Tables S pid ⟨p, l⟩) (hrun : p.status = .running) (r : Bytes)
    {c : Prop} [Decidable c] :
    ((if c ∧ p.readySent = false then p.sendReady r else p).tryOutput S r).status = .running ∨
    ∃ r' q, (if c ∧ p.readySent = false then p.sendReady r else p).tryOutput S r =
      q.decodeOutput S r' ∧ Output S pid ⟨q, l⟩ r' := by
  have htab' : Tables S pid ⟨if c ∧ p.readySent = false then p.sendReady r else p, l⟩ := by
    split
    · exact htab.congr (sendReady_same r p)
    · exact htab
  have hrun' : (if c ∧ p.readySent = false then p.sendReady r else p).status = .running := by
    split <;> exact hrun
  generalize (if c ∧ p.readySent = false then p.sendReady r else p) = q at htab' hrun' ⊢
  unfold Party.tryOutput
  split
  · next hc => exact .inr ⟨r, q, rfl, output_of_complete htab' hrun' hc⟩
  · exact .inl hrun'

/-- **a turn of the loop** goes on, or ends in a call of `decode_output` that finds its stripes -/
theorem recv_output (h : Call S pid ⟨p, l⟩) (hrun : p.status = .running) (src : Fin C.N) (m : Msg) :
    (p.recv S pid src m).status = .running ∨
    ∃ r q, p.recv S pid src m = q.decodeOutput S r ∧ Output S pid ⟨q, (src, m) :: l⟩ r := by
  cases m with
  | VAL r br x =>
    refine .inl ?_
    show (p.recvVal S pid src r br x).status = .running
    unfold Party.recvVal
    split
    · exact hrun
    · split
      · exact hrun
      · dsimp only
        split <;> exact hrun
  | ECHO r br x =>
    show (p.recvEcho S src r br x).status = .running ∨ ∃ r' q, p.recvEcho S src r br x = _ ∧ _
    unfold Party.recvEcho
    split
    · exact .inl hrun
    · next hred =>
      dsimp only
      split
      · next hv =>
        have hs := hash_same (verifyHashed S.H C.N x br src) p
        have htab := (h.tables.congr hs.toSameTables).addEcho (fun hc => hred (.inr hc)) hv
          (List.subset_append_left _ _)
        exact finish_output htab hrun r
      · exact .inl hrun
  | READY r =>
    show (p.recvReady S src r).status = .running ∨ ∃ r' q, p.recvReady S src r = _ ∧ _
    unfold Party.recvReady
    split
    · exact .inl hrun
    · next hred =>
      have htab := h.tables.addReady (r := r) fun hc => hred (.inr hc)
      exact finish_output htab hrun r

/-! ## the states of a call -/

theorem alone_call {nd : PNode C} (h : (protocol S).ReachableAlone pid nd) : Call S pid nd :=
  alone_invariant (Call S pid) Call.init
    (fun src m _ hnd hl => hnd.recv (of_decide_eq_true hl) src m)
    (fun m nd x hnd hx => by
      obtain ⟨hin, rfl⟩ := act_cases hx
      exact hnd.start hin m) h

theorem alone_once {nd : PNode C} (h : (protocol S).ReachableAlone pid nd) : Once nd.st :=
  alone_invariant (fun nd => Once nd.st) ⟨fun _ => rfl, fun _ => rfl⟩
    (fun src m _ hnd _ => hnd.recv src m)
    (fun m nd x hnd hx => by
      obtain ⟨-, rfl⟩ := act_cases hx
      exact hnd.start m) h

/-- what the tables and the sent messages have to do with each other -/
structure InStep (S : Setup C) (nd : PNode C) : Prop where
  counter : ∀ h, nd.st.echoCounter h = (present (nd.st.stripes h)).card
  verified : ∀ h i x, nd.st.stripes h i = some x → ∃ br, Verified S h br x i
  stripe_one : ∀ h h' i, nd.st.stripes h i ≠ none → nd.st.stripes h' i ≠ none → h = h'
  echoSenders : ∀ i, i ∈ nd.st.echoSenders ↔ ∃ h, nd.st.stripes h i ≠ none
  ready_disjoint : ∀ h h', h ≠ h' → Disjoint (nd.st.ready h) (nd.st.ready h')
  readySenders : ∀ i, i ∈ nd.st.readySenders ↔ ∃ h, i ∈ nd.st.ready h
  ready_once : ∀ q, (nd.st.sent q).countP Msg.isReady ≤ 1
  echo_once : ∀ q, (nd.st.sent q).countP Msg.isEcho ≤ 1

/-- **the bookkeeping of a call**, in every state that it reaches; whatever arrives next, the call
goes on or `decode_output` finds the stripes that it needs -/
theorem bookkeeping (C : Committee) (S : Setup C) (pid : Fin C.N) (nd : PNode C)
    (h : (protocol S).ReachableAlone pid nd) : InStep S nd ∧
      (nd.st.status = .running → ∀ src m, (nd.st.recv S pid src m).status = .running ∨
        ∃ r q, nd.st.recv S pid src m = q.decodeOutput S r ∧
          Output S pid ⟨q, (src, m) :: nd.rcvd⟩ r) := by
  have hcall := alone_call h
  have hone := alone_once h
  refine ⟨?_, fun hrun src m => recv_output hcall hrun src m⟩
  refine
    { counter := hcall.tables.counter
      verified := fun r i x hx => ?_
      stripe_one := hcall.tables.stripe_one
      echoSenders := hcall.tables.echoSenders
      ready_disjoint := fun r r' hne => Finset.disjoint_left.mpr fun i hi hi' =>
        hne (hcall.tables.ready_one r r' i hi hi')
      readySenders := hcall.tables.readySenders
      ready_once := fun q => ?_
      echo_once := fun q => ?_ }
  · obtain ⟨br, -, hv, -⟩ := hcall.tables.stripe r i x hx
    exact ⟨br, hv⟩
  · rw [hone.ready q]
    split <;> decide
  · rw [hone.echo q]
    split <;> decide

/-- the ECHO and READY messages of the parties 0 and 3, to the party 1 -/
def four.arrivals : List (Occurrence Committee.four.N Msg Text) :=
  [.receive 3 (four.echo 3), .receive 0 (four.echo 0), .receive 0 (.READY (four.tree.getD 1 [])),
    .receive 3 (.READY (four.tree.getD 1 []))]

set_option maxRecDepth 100000 in
theorem bookkeeping_four : ∃ nd, (protocol four.setup).ReachableAlone 1 nd ∧ InStep four.setup nd ∧
    ∃ r q, nd.st.recv four.setup 1 2 (.READY (four.tree.getD 1 [])) = q.decodeOutput four.setup r ∧
      Output four.setup 1 ⟨q, (2, .READY (four.tree.getD 1 [])) :: nd.rcvd⟩ r := by
  have hexec : (exec ((protocol four.setup).alone 1) (fun _ _ => true)
      ⟨(protocol four.setup).init 1, []⟩ four.arrivals).any (fun nd => decide
        (nd.st.status = .running ∧
          (nd.st.recv four.setup 1 2 (.READY (four.tree.getD 1 []))).status ≠ .running)) = true := by
    decide +kernel
  obtain ⟨nd, hnd, hgood⟩ := exists_reach_of_exec (fun _ _ _ => trivial) hexec
  obtain ⟨hrun, hends⟩ := of_decide_eq_true hgood
  obtain ⟨hstep, hturn⟩ := bookkeeping Committee.four four.setup 1 nd hnd
  exact ⟨nd, hnd, hstep, (hturn hrun 2 _).resolve_left hends⟩

end RBC
