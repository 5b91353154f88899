import HoneyBadgerBFT.HoneyBadger.Round

/-!
# HoneyBadgerBFT: a committee that runs

`Object n G₁ G` is the whole state of an object of the class `HoneyBadgerBFT`: the state of `run` and
of its queues (`Party`), and the calls of `_run_round` so far, by their rounds.  A call stays when it
has returned: its greenlets go on, and help the parties that are behind.

`system` runs this code at every honest party of a committee, over authenticated channels that carry
pairs of a round and a packet.  A Byzantine party may send packets with any round, tag and index; a
packet with the tag of a sub-protocol holds a message that this can read (`wellFormed`).
-/

namespace HoneyBadger
open Async

structure Object (n : ℕ) (G₁ G : Type) where
  hb : Party n (Payload G₁ G)
  rounds : ℤ → Option (Round n G₁ G)

abbrev Setup.Obj {C : Committee} (S : Setup C) := Object C.N S.tsig.G₁ S.tpke.G

abbrev Setup.Msg {C : Committee} (S : Setup C) := ℤ × Packet S.Data

instance {M : Type} [DecidableEq M] : DecidableEq (Packet M) := fun x y =>
  decidable_of_iff (x.tag = y.tag ∧ x.j = y.j ∧ x.msg = y.msg) (by
    cases x
    cases y
    simp)

/-- the block that `_run_round` has returned -/
def Act.block {N : ℕ} {M : Type} : Act N M → Option (List Bytes)
  | .finish newTx => some newTx
  | _ => none

/-- the transaction that has been submitted -/
def Act.submission {N : ℕ} {M : Type} : Act N M → Option Str
  | .submit tx => some tx
  | _ => none

namespace Object

/-- `start`, `finish`, `fail`: the main loop calls `_run_round`, which returns, or raises;
`route r`: the `broadcast_receiver_loop` of the round `r`; `take r i`: the instance `i` of the round
`r` gets its next message; `inner r a`: the round `r` goes on -/
inductive Act (n q : ℕ) where
  | submit (tx : Str)
  | start (key : Bytes) (rnd : ZMod q) (iv : Bytes)
  | finish
  | fail
  | route (r : ℤ)
  | take (r : ℤ) (i : Instance n)
  | inner (r : ℤ) (a : Round.Act n)

section
variable {n : ℕ} {G₁ G : Type}

def init : Object n G₁ G := ⟨Party.init, fun _ => none⟩

def setRound (r : ℤ) (x : Round n G₁ G) (o : Object n G₁ G) : Object n G₁ G :=
  { o with rounds := Function.update o.rounds r (some x) }

/-- the blocks that `_run_round` has returned, in order -/
def blocks (o : Object n G₁ G) : List (List Bytes) := o.hb.trace.filterMap HoneyBadger.Act.block

/-- the transactions that have been submitted, in order -/
def submitted (o : Object n G₁ G) : List Str := o.hb.trace.filterMap HoneyBadger.Act.submission

end

variable {C : Committee} (S : Setup C)

/-- `_recv`, with the message `(r, x)` -/
def receive (src : Fin C.N) (m : S.Msg) (o : S.Obj) : S.Obj :=
  { o with hb := (o.hb.next S.B (.receive src m.1 m.2)).getD o.hb }

def act (pid : Fin C.N) (o : S.Obj) : Act C.N S.tpke.p → Option S.Obj
  | .submit tx => (o.hb.next S.B (.submit tx)).map fun hb => { o with hb := hb }
  | .start key rnd iv => (o.hb.next S.B .start).map fun hb =>
      match hb.main with
      | .inRound tx => { o with hb := hb }.setRound hb.round (Round.start S pid hb.round tx key rnd iv)
      | _ => { o with hb := hb }
  | .finish => do
    let x ← o.rounds o.hb.round
    match x.outcome S pid with
    | .returned newTx => (o.hb.next S.B (.finish newTx)).map fun hb => { o with hb := hb }
    | _ => none
  | .fail => do
    let x ← o.rounds o.hb.round
    match x.outcome S pid with
    | .raised => (o.hb.next S.B .fail).map fun hb => { o with hb := hb }
    | _ => none
  | .route r => (o.hb.next S.B (.route r)).map fun hb => { o with hb := hb }
  | .take r i => do
    let x ← o.rounds r
    let (src, m) ← ((o.hb.queues r).of i)[(x.rcvd i).length]?
    if x.listening S r pid i = true then some (o.setRound r (x.recv S r pid src i m)) else none
  | .inner r a => do
    let x ← o.rounds r
    let y ← x.act S r pid a
    some (o.setRound r y)

/-- what the round `r` has sent to the party `i` -/
def sentIn (o : S.Obj) (r : ℤ) (i : Fin C.N) : List (Packet S.Data) :=
  match o.rounds r with
  | some x => x.sentTo S i
  | none => []

/-- what has been sent to the party `i`, with the rounds -/
def sentTo (o : S.Obj) (i : Fin C.N) : List S.Msg :=
  (List.range (o.hb.round.toNat + 1)).flatMap fun r : ℕ => (o.sentIn S r i).map (Prod.mk (r : ℤ))

end Object

/-- a packet with the tag of a sub-protocol holds a message of this sub-protocol -/
def wellFormed {G₁ G : Type} (m : ℤ × Packet (Payload G₁ G)) : Bool :=
  match m.2.tag, m.2.msg with
  | .ACS_COIN, .coin m => m.wellFormed
  | .ACS_ABA, .aba m => m.wellFormed
  | .ACS_RBC, .rbc _ => true
  | .TPKE, .tpke _ => true
  | .other _, _ => true
  | _, _ => false

variable {C : Committee} (S : Setup C)

/-- an object of the class `HoneyBadgerBFT` at every party -/
def system : Protocol C.N S.Obj S.Msg (Object.Act C.N S.tpke.p) where
  init _ := Object.init
  listening o := decide (o.hb.recvThread = .running)
  recv _ src m o := o.receive S src m
  act pid a o := o.act S pid a
  sentTo o i := o.sentTo S i

abbrev State := Net C.N S.Obj S.Msg

abbrev Running (s : State S) : Prop := (system S).Reachable wellFormed (fun _ _ => True) s

end HoneyBadger
