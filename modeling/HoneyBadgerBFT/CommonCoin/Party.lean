import HoneyBadgerBFT.Library.Network
import HoneyBadgerBFT.ThresholdSignature.Boldyreva

/-!
# Common coin: one instance of `shared_coin`

`Party N G` is the state of one party of a coin: the shares that `_recv` has taken in, round by
round and in the order of their arrival, as the dictionary `received` keeps them, and the queues
`outputQueue[r]` of one place.  A call of `getCoin(r)` broadcasts its share (`getCoin`) and blocks in
`get()` until it takes a bit (`take`); `binaryagreement` makes such calls for `r = 0, 1, ..`.

What is hashed for the round `r` is `str((sid, r))`, which is the parameter `str` here.
-/

namespace Coin
open TSIG

/-- the part `(r, sig)` of a COIN message -/
structure Share (G : Type) where
  r : ℤ
  sig : G
deriving DecidableEq

inductive Out (G : Type) where
  | broadcast (m : Share G)
  | put (r : ℤ) (bit : Bool)

/-- the receive loop runs, or has died of an assertion or of `put_nowait` on a full queue -/
inductive RecvLoop where
  | running | assertionError | full
deriving DecidableEq

structure Party (N : ℕ) (G : Type) where
  received : ℤ → List (Fin N × G)
  outputQueue : ℤ → List Bool
  recvLoop : RecvLoop
  waiting : ℤ → ℕ
  trace : List (Out G)

inductive Act where
  | getCoin (r : ℕ)
  | take (r : ℕ)

def outShare {G : Type} : Out G → Option (Share G)
  | .broadcast m => some m
  | _ => none

def outBit {G : Type} (r : ℤ) : Out G → Option Bool
  | .put r' bit => if r' = r then some bit else none
  | _ => none

section
variable {p : ℕ} [Fact p.Prime] {G₁ G₂ T : Type} [CommGroup G₁] [CommGroup G₂] [CommGroup T]
  [DecidableEq T] {N : ℕ}

namespace Party

/-- the messages broadcast so far -/
def sent (x : Party N G₁) : List (Share G₁) := x.trace.filterMap outShare

/-- the bits that have been put on `outputQueue[r]` -/
def puts (x : Party N G₁) (r : ℤ) : List Bool := x.trace.filterMap (outBit r)

def emit (o : Out G₁) (x : Party N G₁) : Party N G₁ := { x with trace := o :: x.trace }

/-- `shared_coin`, with its two assertions -/
def init (f : ℕ) (PK : PublicKey G₂) : Party N G₁ where
  received := fun _ => []
  outputQueue := fun _ => []
  recvLoop := if PK.k = f + 1 ∧ PK.l = N then .running else .assertionError
  waiting := fun _ => 0
  trace := []

/-- `outputQueue[r].put_nowait(bit)` -/
def putNowait (r : ℤ) (bit : Bool) (x : Party N G₁) : Party N G₁ :=
  if x.outputQueue r = [] then
    { x with outputQueue := Function.update x.outputQueue r [bit] }.emit (.put r bit)
  else { x with recvLoop := .full }

variable (E : Charm p G₁ G₂ T) (str : List ℕ → ℤ → List ℕ) (sid : List ℕ)

/-- `hash(serialize(sig))[0] % 2` -/
def bitOf (sig : G₁) : Bool := decide ((sha256 (E.serialize sig)).headD 0 % 2 = 1)

/-- the message of the round -/
def message (r : ℤ) : G₁ := hashMessage E (str sid r)

/-- the threshold is reached: combine the shares of the round, and put the bit -/
def output (f : ℕ) (PK : PublicKey G₂) (r : ℤ) (x : Party N G₁) : Party N G₁ :=
  let sigs := ((x.received r).take (f + 1)).map fun y => (y.1.val, y.2)
  match combineShares p PK sigs with
  | none => { x with recvLoop := .assertionError }
  | some sig =>
    if verifySignature E PK sig (message E str sid r) = true then x.putNowait r (bitOf E sig)
    else { x with recvLoop := .assertionError }

/-- one turn of `_recv` -/
def recv (f : ℕ) (PK : PublicKey G₂) (i : Fin N) (m : Share G₁) (x : Party N G₁) : Party N G₁ :=
  if m.r < 0 then { x with recvLoop := .assertionError }
  else if ∃ y ∈ x.received m.r, y.1 = i then x
  else if verifyShare E PK m.sig i (message E str sid m.r) = false then x
  else
    let x := { x with received := Function.update x.received m.r (x.received m.r ++ [(i, m.sig)]) }
    if (x.received m.r).length = f + 1 then x.output E str sid f PK m.r else x

/-- `getCoin(r)`, up to its `get()` -/
def getCoin (SK : PrivateKey p G₂) (r : ℕ) (x : Party N G₁) : Party N G₁ :=
  { x with waiting := Function.update x.waiting r (x.waiting r + 1) }.emit
    (.broadcast ⟨r, sign SK (message E str sid r)⟩)

/-- the `get()` of a call of `getCoin(r)` -/
def take (r : ℕ) (x : Party N G₁) : Option (Party N G₁) :=
  match x.waiting r, x.outputQueue r with
  | k + 1, _ :: rest => some { x with
      waiting := Function.update x.waiting r k
      outputQueue := Function.update x.outputQueue r rest }
  | _, _ => none

def act (SK : Option (PrivateKey p G₂)) : Act → Party N G₁ → Option (Party N G₁)
  | .getCoin r, x => SK.map fun SK => x.getCoin E str sid SK r
  | .take r, x => x.take r

end Party

/-- a share, right or wrong, for a round from 0 on -/
def Share.wellFormed (m : Share G₁) : Bool := decide (0 ≤ m.r)

/-- `shared_coin` with the instance id `sid` and the keys of a dealer at every party -/
def protocol (E : Charm p G₁ G₂ T) (str : List ℕ → ℤ → List ℕ) (sid : List ℕ) (C : Committee)
    (PK : PublicKey G₂) (SKs : List (PrivateKey p G₂)) :
    Async.Protocol C.N (Party C.N G₁) (Share G₁) Act where
  init _ := Party.init C.f PK
  listening x := decide (x.recvLoop = .running)
  recv _ i m x := x.recv E str sid C.f PK i m
  act i a x := x.act E str sid SKs[i.val]? a
  sentTo x _ := x.sent

end

end Coin
