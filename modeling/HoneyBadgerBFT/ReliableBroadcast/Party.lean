import HoneyBadgerBFT.Library.Network
import HoneyBadgerBFT.ReliableBroadcast.Erasure
import HoneyBadgerBFT.ReliableBroadcast.Merkle

/-!
# Reliable broadcast: one call of `reliablebroadcast`

`Party n` is the state of one call among `n` parties: the tables of the main loop, the messages that
have been sent to each party, and the list `hashed` of the strings that the call has hashed.  The
fields of a message are byte strings and a list of byte strings.  The tables are total functions, as
`defaultdict` makes them.

The leader of the call begins in `input()`; every other party begins in the main loop.  One turn of
the loop is `recv`.  The call ends when `decode_output` returns, or when it raises.
-/

namespace RBC

inductive Msg where
  | VAL (roothash : Bytes) (branch : List Bytes) (stripe : Bytes)
  | ECHO (roothash : Bytes) (branch : List Bytes) (stripe : Bytes)
  | READY (roothash : Bytes)
deriving DecidableEq

/-- what a broadcast is set up with: its leader, `zfec` for `K = N-2f`, and the hash function -/
structure Setup (C : Committee) where
  leader : Fin C.N
  zfec : Zfec (C.N - 2 * C.f) C.N
  H : Digest

inductive Status where
  | input
  | running
  | returned (m : Bytes)
  | raised
deriving DecidableEq

structure Party (n : ℕ) where
  status : Status
  m : Option Text
  fromLeader : Option Bytes
  stripes : Bytes → Fin n → Option Bytes
  echoCounter : Bytes → ℕ
  echoSenders : Finset (Fin n)
  ready : Bytes → Finset (Fin n)
  readySent : Bool
  readySenders : Finset (Fin n)
  sent : Fin n → List Msg
  hashed : List Bytes

namespace Party
variable {n : ℕ}

def init (status : Status) : Party n where
  status := status
  m := none
  fromLeader := none
  stripes := fun _ _ => none
  echoCounter := fun _ => 0
  echoSenders := ∅
  ready := fun _ => ∅
  readySent := false
  readySenders := ∅
  sent := fun _ => []
  hashed := []

def broadcast (o : Msg) (p : Party n) : Party n := { p with sent := fun i => o :: p.sent i }

/-- these strings are hashed -/
def hash (xs : List Bytes) (p : Party n) : Party n := { p with hashed := xs ++ p.hashed }

variable {C : Committee} (S : Setup C)

/-- the leader's part before the loop -/
def start (m : Text) (p : Party C.N) : Party C.N :=
  match encode S.zfec m with
  | none => { p with status := .raised }
  | some stripes =>
    let mt := merkleTree S.H stripes
    let p := p.hash (treeHashed S.H stripes)
    { p with
      status := .running
      m := some m
      sent := fun i =>
        .VAL (mt.getD 1 []) (getMerkleBranch i mt) (stripes.getD i []) :: p.sent i }

/-- `return decode_output(roothash)` -/
def decodeOutput (roothash : Bytes) (p : Party C.N) : Party C.N :=
  match decode S.zfec (p.stripes roothash) with
  | none => { p with status := .raised }
  | some m =>
    match encode S.zfec (.bytes m) with
    | none => { p with status := .raised }
    | some _stripes =>
      let p := p.hash (treeHashed S.H _stripes)
      if (merkleTree S.H _stripes).getD 1 [] = roothash then { p with status := .returned m }
      else { p with status := .raised }

/-- the test after an ECHO or a READY message for `roothash` -/
def tryOutput (roothash : Bytes) (p : Party C.N) : Party C.N :=
  if 2 * C.f + 1 ≤ (p.ready roothash).card ∧ C.N - 2 * C.f ≤ p.echoCounter roothash then
    p.decodeOutput S roothash
  else p

/-- `readySent = True`, `broadcast(('READY', roothash))` -/
def sendReady (roothash : Bytes) (p : Party n) : Party n :=
  { p with readySent := true }.broadcast (.READY roothash)

def recvVal (pid sender : Fin C.N) (roothash : Bytes) (branch : List Bytes) (stripe : Bytes)
    (p : Party C.N) : Party C.N :=
  if p.fromLeader ≠ none then p
  else if sender ≠ S.leader then p
  else
    let p := p.hash (verifyHashed S.H C.N stripe branch pid)
    if merkleVerify S.H C.N stripe roothash branch pid = some true then
      { p with fromLeader := some roothash }.broadcast (.ECHO roothash branch stripe)
    else p

/-- an ECHO message that passes: the tables after it -/
def addEcho (sender : Fin n) (roothash stripe : Bytes) (p : Party n) : Party n :=
  { p with
    stripes := Function.update p.stripes roothash
      (Function.update (p.stripes roothash) sender (some stripe))
    echoSenders := insert sender p.echoSenders
    echoCounter := Function.update p.echoCounter roothash (p.echoCounter roothash + 1) }

def recvEcho (sender : Fin C.N) (roothash : Bytes) (branch : List Bytes) (stripe : Bytes)
    (p : Party C.N) : Party C.N :=
  if p.stripes roothash sender ≠ none ∨ sender ∈ p.echoSenders then p
  else
    let p := p.hash (verifyHashed S.H C.N stripe branch sender)
    if merkleVerify S.H C.N stripe roothash branch sender = some true then
      let p := p.addEcho sender roothash stripe
      let p :=
        if C.N - C.f ≤ p.echoCounter roothash ∧ p.readySent = false then p.sendReady roothash else p
      p.tryOutput S roothash
    else p

/-- a READY message that passes: the tables after it -/
def addReady (sender : Fin n) (roothash : Bytes) (p : Party n) : Party n :=
  { p with
    ready := Function.update p.ready roothash (insert sender (p.ready roothash))
    readySenders := insert sender p.readySenders }

def recvReady (sender : Fin C.N) (roothash : Bytes) (p : Party C.N) : Party C.N :=
  if sender ∈ p.ready roothash ∨ sender ∈ p.readySenders then p
  else
    let p := p.addReady sender roothash
    let p :=
      if C.f + 1 ≤ (p.ready roothash).card ∧ p.readySent = false then p.sendReady roothash else p
    p.tryOutput S roothash

/-- one turn of the main loop -/
def recv (pid sender : Fin C.N) : Msg → Party C.N → Party C.N
  | .VAL roothash branch stripe => recvVal S pid sender roothash branch stripe
  | .ECHO roothash branch stripe => recvEcho S sender roothash branch stripe
  | .READY roothash => recvReady S sender roothash

/-- the leader gets its input -/
def act (m : Text) (p : Party C.N) : Option (Party C.N) :=
  if p.status = .input then some (p.start S m) else none

end Party

/-- `reliablebroadcast` at every party -/
def protocol {C : Committee} (S : Setup C) : Async.Protocol C.N (Party C.N) Msg Text where
  init pid := Party.init (if pid = S.leader then .input else .running)
  listening p := decide (p.status = .running)
  recv pid sender m p := p.recv S pid sender m
  act _ m p := p.act S m
  sentTo p i := p.sent i

end RBC
