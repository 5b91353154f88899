import HoneyBadgerBFT.ReliableBroadcast.Party
import HoneyBadgerBFT.ReliableBroadcast.Values

/-!
# Reliable broadcast: one call, with any values in its messages

The same call as `RBC.Party`, where the fields of a message are values of any type, as they come from
a Byzantine party.  The keys of the tables are the values that can be hashed; `stripes[roothash]` has
`none` where Python has `None`.  What differs is where the code raises: at a root hash that is no
key, at an exception of `merkleVerify` that is not caught (`except Exception` for VAL messages,
`except AssertionError` for ECHO messages), and in `zfec` at a stripe that is not `bytes`.
-/

namespace RBC.Raw

inductive Msg where
  | VAL (roothash branch stripe : PyVal)
  | ECHO (roothash branch stripe : PyVal)
  | READY (roothash : PyVal)
deriving DecidableEq

structure Party (n : ℕ) where
  status : Status
  m : Option Text
  fromLeader : Option PyVal
  stripes : PyVal → Fin n → Option PyVal
  echoCounter : PyVal → ℕ
  echoSenders : Finset (Fin n)
  ready : PyVal → Finset (Fin n)
  readySent : Bool
  readySenders : Finset (Fin n)
  sent : Fin n → List Msg
  hashed : List Bytes

namespace Party
variable {n : ℕ}

def init (status : Status) : Party n where
  status := status
  m := none
  fromLeader := none
  stripes := fun _ _ => none
  echoCounter := fun _ => 0
  echoSenders := ∅
  ready := fun _ => ∅
  readySent := false
  readySenders := ∅
  sent := fun _ => []
  hashed := []

def broadcast (o : Msg) (p : Party n) : Party n := { p with sent := fun i => o :: p.sent i }

def hash (xs : List Bytes) (p : Party n) : Party n := { p with hashed := xs ++ p.hashed }

/-- an exception leaves the call -/
def raised (p : Party n) : Party n := { p with status := .raised }

variable {C : Committee} (S : Setup C)

/-- the leader's part before the loop -/
def start (m : Text) (p : Party C.N) : Party C.N :=
  match encode S.zfec m with
  | none => p.raised
  | some stripes =>
    let mt := merkleTree S.H stripes
    let p := p.hash (treeHashed S.H stripes)
    { p with
      status := .running
      m := some m
      sent := fun i =>
        .VAL (.bytes (mt.getD 1 [])) (.list ((getMerkleBranch i mt).map .bytes))
          (.bytes (stripes.getD i [])) :: p.sent i }

/-- `return decode_output(roothash)` -/
def decodeOutput (roothash : PyVal) (p : Party C.N) : Party C.N :=
  match decodeVal S.zfec (p.stripes roothash) with
  | none => p.raised
  | some m =>
    match encode S.zfec (.bytes m) with
    | none => p.raised
    | some _stripes =>
      let p := p.hash (treeHashed S.H _stripes)
      if .bytes ((merkleTree S.H _stripes).getD 1 []) = roothash then { p with status := .returned m }
      else p.raised

/-- the test after an ECHO or a READY message for `roothash` -/
def tryOutput (roothash : PyVal) (p : Party C.N) : Party C.N :=
  if 2 * C.f + 1 ≤ (p.ready roothash).card ∧ C.N - 2 * C.f ≤ p.echoCounter roothash then
    p.decodeOutput S roothash
  else p

/-- `readySent = True`, `broadcast(('READY', roothash))` -/
def sendReady (roothash : PyVal) (p : Party n) : Party n :=
  { p with readySent := true }.broadcast (.READY roothash)

def recvVal (pid sender : Fin C.N) (roothash branch stripe : PyVal) (p : Party C.N) : Party C.N :=
  if p.fromLeader ≠ none then p
  else if sender ≠ S.leader then p
  else
    let p := p.hash (verifyHashedVal S.H C.N stripe branch pid)
    match merkleVerifyVal S.H C.N stripe roothash branch pid with
    | .ok true => { p with fromLeader := some roothash }.broadcast (.ECHO roothash branch stripe)
    | _ => p

/-- an ECHO message that passes: the tables after it -/
def addEcho (sender : Fin n) (roothash stripe : PyVal) (p : Party n) : Party n :=
  { p with
    stripes := Function.update p.stripes roothash
      (Function.update (p.stripes roothash) sender (some stripe))
    echoSenders := insert sender p.echoSenders
    echoCounter := Function.update p.echoCounter roothash (p.echoCounter roothash + 1) }

/-- an ECHO message that passes -/
def takeEcho (sender : Fin C.N) (roothash stripe : PyVal) (p : Party C.N) : Party C.N :=
  let p := p.addEcho sender roothash stripe
  let p :=
    if C.N - C.f ≤ p.echoCounter roothash ∧ p.readySent = false then p.sendReady roothash else p
  p.tryOutput S roothash

def recvEcho (sender : Fin C.N) (roothash branch stripe : PyVal) (p : Party C.N) : Party C.N :=
  if roothash.hashable = false then p.raised
  else if p.stripes roothash sender ≠ none ∨ sender ∈ p.echoSenders then p
  else
    let p := p.hash (verifyHashedVal S.H C.N stripe branch sender)
    match merkleVerifyVal S.H C.N stripe roothash branch sender with
    | .ok true => p.takeEcho S sender roothash stripe
    | .error .other => p.raised
    | _ => p

/-- a READY message that passes: the tables after it -/
def addReady (sender : Fin n) (roothash : PyVal) (p : Party n) : Party n :=
  { p with
    ready := Function.update p.ready roothash (insert sender (p.ready roothash))
    readySenders := insert sender p.readySenders }

/-- a READY message that passes -/
def takeReady (sender : Fin C.N) (roothash : PyVal) (p : Party C.N) : Party C.N :=
  let p := p.addReady sender roothash
  let p :=
    if C.f + 1 ≤ (p.ready roothash).card ∧ p.readySent = false then p.sendReady roothash else p
  p.tryOutput S roothash

def recvReady (sender : Fin C.N) (roothash : PyVal) (p : Party C.N) : Party C.N :=
  if roothash.hashable = false then p.raised
  else if sender ∈ p.ready roothash ∨ sender ∈ p.readySenders then p
  else p.takeReady S sender roothash

/-- one turn of the main loop -/
def recv (pid sender : Fin C.N) : Msg → Party C.N → Party C.N
  | .VAL roothash branch stripe => recvVal S pid sender roothash branch stripe
  | .ECHO roothash branch stripe => recvEcho S sender roothash branch stripe
  | .READY roothash => recvReady S sender roothash

/-- the leader gets its input -/
def act (m : Text) (p : Party C.N) : Option (Party C.N) :=
  if p.status = .input then some (p.start S m) else none

end Party

/-- `reliablebroadcast` at every party -/
def protocol {C : Committee} (S : Setup C) : Async.Protocol C.N (Party C.N) Msg Text where
  init pid := Party.init (if pid = S.leader then .input else .running)
  listening p := decide (p.status = .running)
  recv pid sender m p := p.recv S pid sender m
  act _ m p := p.act S m
  sentTo p i := p.sent i

abbrev State (C : Committee) := Async.Net C.N (Party C.N) Msg

abbrev Lbl (C : Committee) := Async.Label C.N Msg Text

variable {C : Committee} (S : Setup C)

/-- the states of the runs whose steps all meet `ok`; a Byzantine message has any values in it -/
def Reached (ok : State C → Lbl C → Prop) (s : State C) : Prop :=
  (protocol S).Reachable (fun _ => true) ok s

/-- the strings that the calls of the honest parties have hashed -/
def hashedIn (s : State C) : Set Bytes := {x | ∃ p, C.Honest p ∧ x ∈ (s p).st.hashed}

/-! ## what a message can do -/

namespace Party
variable {S} {x : Party C.N} {pid src : Fin C.N} {roothash branch stripe : PyVal}

/-- the test for a redundant ECHO message -/
def HasEcho (src : Fin C.N) (roothash : PyVal) (x : Party C.N) : Prop :=
  x.stripes roothash src ≠ none ∨ src ∈ x.echoSenders

/-- the test for a redundant READY message -/
def HasReady (src : Fin C.N) (roothash : PyVal) (x : Party C.N) : Prop :=
  src ∈ x.ready roothash ∨ src ∈ x.readySenders

instance : Decidable (x.HasEcho src roothash) := inferInstanceAs (Decidable (_ ∨ _))

instance : Decidable (x.HasReady src roothash) := inferInstanceAs (Decidable (_ ∨ _))

/-- everything that an ECHO message can do -/
theorem recvEcho_cases (S : Setup C) (x : Party C.N) (src : Fin C.N)
    (roothash branch stripe : PyVal) :
    ((roothash.hashable = false ∨
        (¬ x.HasEcho src roothash ∧ checkable C.N stripe roothash branch = false)) ∧
      ∃ hs, x.recvEcho S src roothash branch stripe = (x.hash hs).raised) ∨
    (roothash.hashable = true ∧
      (x.HasEcho src roothash ∨ (checkable C.N stripe roothash branch = true ∧
        merkleVerifyVal S.H C.N stripe roothash branch src ≠ .ok true)) ∧
      ∃ hs, x.recvEcho S src roothash branch stripe = x.hash hs) ∨
    (roothash.hashable = true ∧ ¬ x.HasEcho src roothash ∧
      merkleVerifyVal S.H C.N stripe roothash branch src = .ok true ∧
      x.recvEcho S src roothash branch stripe =
        (x.hash (verifyHashedVal S.H C.N stripe branch src)).takeEcho S src roothash stripe) := by
  have hraise : merkleVerifyVal S.H C.N stripe roothash branch src = .error .other ↔
      checkable C.N stripe roothash branch = false := verify_raises_iff S.H
  unfold recvEcho
  cases hkey : roothash.hashable with
  | false => exact .inl ⟨.inl rfl, [], rfl⟩
  | true =>
    rw [if_neg (Bool.noConfusion ·)]
    by_cases hhas : x.HasEcho src roothash
    · exact .inr (.inl ⟨rfl, .inl hhas, [], if_pos hhas⟩)
    · rw [if_neg (show ¬ (x.stripes roothash src ≠ none ∨ src ∈ x.echoSenders) from hhas)]
      dsimp only
      split
      · next hv => exact .inr (.inr ⟨rfl, hhas, hv, rfl⟩)
      · next hv => exact .inl ⟨.inr ⟨hhas, hraise.mp hv⟩, _, rfl⟩
      · next hv1 hv2 =>
        refine .inr (.inl ⟨rfl, .inr ⟨?_, hv1⟩, _, rfl⟩)
        exact eq_true_of_ne_false fun hc => hv2 (hraise.mpr hc)

/-- everything that a READY message can do -/
theorem recvReady_cases (S : Setup C) (x : Party C.N) (src : Fin C.N) (roothash : PyVal) :
    (roothash.hashable = false ∧ x.recvReady S src roothash = x.raised) ∨
    (roothash.hashable = true ∧ x.HasReady src roothash ∧ x.recvReady S src roothash = x) ∨
    (roothash.hashable = true ∧ ¬ x.HasReady src roothash ∧
      x.recvReady S src roothash = x.takeReady S src roothash) := by
  unfold recvReady
  cases hkey : roothash.hashable with
  | false => exact .inl ⟨rfl, rfl⟩
  | true =>
    rw [if_neg (Bool.noConfusion ·)]
    by_cases hhas : x.HasReady src roothash
    · exact .inr (.inl ⟨rfl, hhas, if_pos hhas⟩)
    · exact .inr (.inr ⟨rfl, hhas, if_neg hhas⟩)

/-- a VAL message that is not the leader's is skipped -/
theorem recvVal_of_ne (hsrc : src ≠ S.leader) : x.recvVal S pid src roothash branch stripe = x := by
  unfold recvVal
  by_cases hfrom : x.fromLeader ≠ none
  · exact if_pos hfrom
  · rw [if_neg hfrom, if_pos hsrc]

/-- `decode_output` leaves the tables alone -/
theorem decodeOutput_same (k : PyVal) (x : Party C.N) :
    (x.decodeOutput S k).stripes = x.stripes ∧ (x.decodeOutput S k).ready = x.ready := by
  unfold decodeOutput
  split
  · exact ⟨rfl, rfl⟩
  · split
    · exact ⟨rfl, rfl⟩
    · dsimp only
      split <;> exact ⟨rfl, rfl⟩

theorem tryOutput_same (k : PyVal) (x : Party C.N) :
    (x.tryOutput S k).stripes = x.stripes ∧ (x.tryOutput S k).ready = x.ready := by
  unfold tryOutput
  split
  · exact decodeOutput_same k x
  · exact ⟨rfl, rfl⟩

theorem addEcho_stripes (k : PyVal) (i : Fin C.N) :
    (x.addEcho src roothash stripe).stripes k i =
      if k = roothash ∧ i = src then some stripe else x.stripes k i := by
  unfold addEcho
  dsimp only
  by_cases hk : k = roothash
  · subst hk
    rw [Function.update_self]
    by_cases hi : i = src
    · rw [if_pos ⟨rfl, hi⟩, hi, Function.update_self]
    · rw [if_neg fun h => hi h.2, Function.update_of_ne hi]
  · rw [Function.update_of_ne hk, if_neg fun h => hk h.1]

/-- the stripes after an ECHO message has been taken in -/
theorem takeEcho_stripes (k : PyVal) (i : Fin C.N) :
    (x.takeEcho S src roothash stripe).stripes k i =
      if k = roothash ∧ i = src then some stripe else x.stripes k i := by
  unfold takeEcho
  dsimp only
  rw [(tryOutput_same _ _).1, ← addEcho_stripes]
  split <;> rfl

theorem takeReady_stripes : (x.takeReady S src roothash).stripes = x.stripes := by
  unfold takeReady
  dsimp only
  rw [(tryOutput_same _ _).1]
  split <;> rfl

theorem mem_takeReady : src ∈ (x.takeReady S src roothash).ready roothash := by
  have hadd : src ∈ (x.addReady src roothash).ready roothash := by
    show src ∈ Function.update x.ready roothash (insert src (x.ready roothash)) roothash
    rw [Function.update_self]
    exact Finset.mem_insert_self _ _
  unfold takeReady
  dsimp only
  rw [(tryOutput_same _ _).2]
  split <;> exact hadd

theorem recvVal_stripes : (x.recvVal S pid src roothash branch stripe).stripes = x.stripes := by
  unfold recvVal
  split
  · rfl
  · split
    · rfl
    · dsimp only
      split <;> rfl

/-- the stripes change with an ECHO message that gets in -/
theorem recv_stripes (S : Setup C) (x : Party C.N) (pid src : Fin C.N) (m : Msg) :
    (x.recv S pid src m).stripes = x.stripes ∨
    ∃ roothash branch stripe, m = .ECHO roothash branch stripe ∧ ¬ x.HasEcho src roothash ∧
      merkleVerifyVal S.H C.N stripe roothash branch src = .ok true ∧
      ∀ k i, (x.recv S pid src m).stripes k i =
        if k = roothash ∧ i = src then some stripe else x.stripes k i := by
  cases m with
  | VAL roothash branch stripe => exact .inl recvVal_stripes
  | ECHO roothash branch stripe =>
    show (x.recvEcho S src roothash branch stripe).stripes = _ ∨ _
    rcases recvEcho_cases S x src roothash branch stripe with
      ⟨-, hs, heq⟩ | ⟨-, -, hs, heq⟩ | ⟨-, hnew, hv, heq⟩
    · rw [heq]
      exact .inl rfl
    · rw [heq]
      exact .inl rfl
    · refine .inr ⟨roothash, branch, stripe, rfl, hnew, hv, fun k i => ?_⟩
      show (x.recvEcho S src roothash branch stripe).stripes k i = _
      rw [heq, takeEcho_stripes]
      rfl
  | READY roothash =>
    show (x.recvReady S src roothash).stripes = _ ∨ _
    rcases recvReady_cases S x src roothash with
      ⟨-, heq⟩ | ⟨-, -, heq⟩ | ⟨-, -, heq⟩ <;> rw [heq]
    · exact .inl rfl
    · exact .inl rfl
    · exact .inl takeReady_stripes

end Party

end RBC.Raw
