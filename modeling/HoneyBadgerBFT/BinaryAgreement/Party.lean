import HoneyBadgerBFT.Library.Network
import Mathlib.Algebra.BigOperators.Group.Finset.Basic

/-!
# Binary agreement: one call of `binaryagreement`

`Party n` is the state of one call among `n` parties: the tables of `_recv`, the variables of the
main loop, and the list `trace` of what the call has done to its environment.  Bits are `Bool`
(`false` is 0), a set of bits is a `Finset Bool`, and the tuple of a CONF message is a `List Bool`.
The tables are total functions, as `defaultdict` makes them; rounds of messages are any integers.

The receive loop is `recv`, one message at a time.  The main loop is cut at its tests: `mainStep`
runs from the test at `pc` to the next one.  The call blocks in `input()`, in `coin(r)` and in
`bv_signal.wait()`, and a test that fails clears the signal and starts to wait in the same step, so
that no message comes in between; between two tests that succeed the receive loop may run, which
the code's scheduler does not do, and whatever holds of these runs holds of the code's.
-/

namespace BA

inductive Msg where
  | EST (r : ℤ) (v : Bool)
  | AUX (r : ℤ) (v : Bool)
  | CONF (r : ℤ) (v : List Bool)
deriving DecidableEq

/-- the keys of `conf_values[r]` -/
def confKeys : List (List Bool) := [[false], [true], [false, true]]

/-- the messages that pass the assertions of the receive loop -/
def Msg.wellFormed : Msg → Bool
  | .CONF _ v => decide (v ∈ confKeys)
  | _ => true

/-- what a call does to its environment, and three of its log lines: `Starting with est = ..`,
`Completed CONF phase with values = ..` (where `wait_for_conf_values` returns) and
`Received coin with value = ..` -/
inductive Out where
  | broadcast (m : Msg)
  | decide (v : Bool)
  | coin (r : ℤ)
  | starting (r : ℤ) (est : Bool)
  | confReturn (r : ℤ) (values : Finset Bool)
  | received (r : ℤ) (s : Bool)
deriving DecidableEq

/-- the receive loop runs, has died of an exception, or was killed when the call returned -/
inductive RecvLoop where
  | running | redundantMessageError | assertionError | killed
deriving DecidableEq

/-- where the main loop stands -/
inductive Pc where
  | input
  | top
  | bin
  | aux
  | conf
  | coin (values : Finset Bool)
  | returned
deriving DecidableEq

structure Party (n : ℕ) where
  estValues : ℤ → Bool → Finset (Fin n)
  auxValues : ℤ → Bool → Finset (Fin n)
  confValues : ℤ → List Bool → Finset (Fin n)
  estSent : ℤ → Bool → Bool
  confSent : ℤ → List Bool → Bool
  binValues : ℤ → Finset Bool
  bvSignal : Bool
  recvLoop : RecvLoop
  pc : Pc
  parked : Bool
  r : ℤ
  est : Bool
  alreadyDecided : Option Bool
  trace : List Out

/-- `table[r][v] = x` -/
def put {β γ : Type} [DecidableEq β] (table : ℤ → β → γ) (r : ℤ) (v : β) (x : γ) : ℤ → β → γ :=
  Function.update table r (Function.update (table r) v x)

theorem put_apply {β γ : Type} [DecidableEq β] (table : ℤ → β → γ) (r r' : ℤ) (v v' : β) (x : γ) :
    put table r v x r' v' = if r' = r ∧ v' = v then x else table r' v' := by
  unfold put
  by_cases hr : r' = r
  · subst hr
    by_cases hv : v' = v
    · subst hv; simp
    · simp [hv]
  · simp [hr]

/-- the elements of a set of bits in the order in which Python iterates over it -/
def iter (s : Finset Bool) : List Bool :=
  (if false ∈ s then [false] else []) ++ (if true ∈ s then [true] else [])

/-- `next(iter(s))`, for a set that is not empty -/
def nextIter (s : Finset Bool) : Bool := if false ∈ s then false else true

namespace Party
variable {n : ℕ}

def init : Party n where
  estValues := fun _ _ => ∅
  auxValues := fun _ _ => ∅
  confValues := fun _ _ => ∅
  estSent := fun _ _ => false
  confSent := fun _ _ => false
  binValues := fun _ => ∅
  bvSignal := false
  recvLoop := .running
  pc := .input
  parked := false
  r := 0
  est := false
  alreadyDecided := none
  trace := []

def emit (o : Out) (p : Party n) : Party n := { p with trace := o :: p.trace }

def broadcast (m : Msg) (p : Party n) : Party n := p.emit (.broadcast m)

/-! ## the receive loop -/

/-- relay after reaching the first threshold -/
def relayEst (f : ℕ) (r : ℤ) (v : Bool) (p : Party n) : Party n :=
  if f + 1 ≤ (p.estValues r v).card ∧ p.estSent r v = false then
    { p with estSent := put p.estSent r v true }.broadcast (.EST r v)
  else p

/-- output after reaching the second threshold -/
def outputEst (f : ℕ) (r : ℤ) (v : Bool) (p : Party n) : Party n :=
  if 2 * f + 1 ≤ (p.estValues r v).card then
    { p with binValues := Function.update p.binValues r (insert v (p.binValues r)), bvSignal := true }
  else p

def recvEst (f : ℕ) (sender : Fin n) (r : ℤ) (v : Bool) (p : Party n) : Party n :=
  if sender ∈ p.estValues r v then { p with recvLoop := .redundantMessageError }
  else
    outputEst f r v
      (relayEst f r v { p with estValues := put p.estValues r v (insert sender (p.estValues r v)) })

def recvAux (sender : Fin n) (r : ℤ) (v : Bool) (p : Party n) : Party n :=
  if sender ∈ p.auxValues r v then { p with recvLoop := .redundantMessageError }
  else
    { p with auxValues := put p.auxValues r v (insert sender (p.auxValues r v)), bvSignal := true }

def handleConfMessages (sender : Fin n) (r : ℤ) (v : List Bool) (p : Party n) : Party n :=
  if v ∉ confKeys then { p with recvLoop := .assertionError }
  else if sender ∈ p.confValues r v then { p with recvLoop := .redundantMessageError }
  else
    { p with confValues := put p.confValues r v (insert sender (p.confValues r v)), bvSignal := true }

/-- one turn of `_recv` -/
def recv (f : ℕ) (sender : Fin n) : Msg → Party n → Party n
  | .EST r v => recvEst f sender r v
  | .AUX r v => recvAux sender r v
  | .CONF r v => handleConfMessages sender r v

/-! ## the main loop -/

/-- the exit tests of the AUX loop and the `values` they give -/
def auxExit (f : ℕ) (p : Party n) : Option (Finset Bool) :=
  let bin := p.binValues p.r
  if true ∈ bin ∧ n - f ≤ (p.auxValues p.r true).card then some {true}
  else if false ∈ bin ∧ n - f ≤ (p.auxValues p.r false).card then some {false}
  else if n - f ≤ ∑ v ∈ bin, (p.auxValues p.r v).card then some {false, true}
  else none

/-- the sum in the third exit test of `wait_for_conf_values`, for the round `r` -/
def confSum (p : Party n) (r : ℤ) : ℕ :=
  ((confKeys.filter fun c => p.confValues r c ≠ ∅ ∧ ∀ b ∈ c, b ∈ p.binValues r).map
    fun c => (p.confValues r c).card).sum

/-- the exit tests of `wait_for_conf_values` and the set they return -/
def confExit (f : ℕ) (p : Party n) : Option (Finset Bool) :=
  let bin := p.binValues p.r
  if true ∈ bin ∧ n - f ≤ (p.confValues p.r [true]).card then some {true}
  else if false ∈ bin ∧ n - f ≤ (p.confValues p.r [false]).card then some {false}
  else if n - f ≤ p.confSum p.r then some {false, true}
  else none

/-- `bv_signal.clear(); bv_signal.wait()` -/
def wait (p : Party n) : Party n := { p with bvSignal := false, parked := true }

/-- go on to the next test -/
def goto (pc : Pc) (p : Party n) : Party n := { p with pc := pc, parked := false }

/-- `coin(r)` is called with these `values` in hand -/
def callCoin (values : Finset Bool) (p : Party n) : Party n :=
  (p.emit (.coin p.r)).goto (.coin values)

/-- the head of the loop -/
def startRound (p : Party n) : Party n :=
  let p := p.emit (.starting p.r p.est)
  if p.estSent p.r p.est = false then
    ({ p with estSent := put p.estSent p.r p.est true }.broadcast (.EST p.r p.est)).goto .bin
  else p.goto .bin

/-- `while len(bin_values[r]) == 0`, and the AUX message after it -/
def checkBin (p : Party n) : Party n :=
  if p.binValues p.r = ∅ then p.wait
  else (p.broadcast (.AUX p.r (nextIter (p.binValues p.r)))).goto .aux

/-- a turn of the AUX loop, and the start of `wait_for_conf_values` after its exit -/
def checkAux (f : ℕ) (p : Party n) : Party n :=
  match p.auxExit f with
  | none => p.wait
  | some values =>
    if p.confSent p.r (iter values) = false then
      ({ p with confSent := put p.confSent p.r (iter values) true }.broadcast
        (.CONF p.r (iter (p.binValues p.r)))).goto .conf
    else p.callCoin values

/-- a turn of the loop of `wait_for_conf_values` -/
def checkConf (f : ℕ) (p : Party n) : Party n :=
  match p.confExit f with
  | none => p.wait
  | some values => (p.emit (.confReturn p.r values)).callCoin values

/-- the main loop from one test to the next; `none` where it blocks -/
def mainStep (f : ℕ) (p : Party n) : Option (Party n) :=
  if p.parked = true ∧ p.bvSignal = false then none
  else
    match p.pc with
    | .top => some p.startRound
    | .bin => some p.checkBin
    | .aux => some (p.checkAux f)
    | .conf => some (p.checkConf f)
    | _ => none

/-- the result of `set_new_estimate`: the exception, or the next estimate and `already_decided`
with the bit that `decide` was called with -/
inductive NewEstimate where
  | abandonedNodeError
  | next (est : Bool) (alreadyDecided decided : Option Bool)

def setNewEstimate (values : Finset Bool) (s : Bool) (alreadyDecided : Option Bool) : NewEstimate :=
  if values.card = 1 then
    let v := nextIter values
    if v = s then
      match alreadyDecided with
      | none => .next v (some v) (some v)
      | some d => if d = v then .abandonedNodeError else .next v (some d) none
    else .next v alreadyDecided none
  else .next s alreadyDecided none

/-- the coin has answered `s` -/
def afterCoin (values : Finset Bool) (s : Bool) (p : Party n) : Party n :=
  let p := p.emit (.received p.r s)
  match setNewEstimate values s p.alreadyDecided with
  | .abandonedNodeError => { p with recvLoop := .killed, pc := .returned }
  | .next est alreadyDecided decided =>
    let p := { p with est := est, alreadyDecided := alreadyDecided, r := p.r + 1, pc := .top }
    match decided with
    | none => p
    | some v => p.emit (.decide v)

inductive Act where
  | input (v : Bool)
  | main
  | coin (s : Bool)

def act (f : ℕ) : Act → Party n → Option (Party n)
  | .input v, p =>
    if p.pc = .input then some { p with est := v, r := 0, alreadyDecided := none, pc := .top }
    else none
  | .main, p => p.mainStep f
  | .coin s, p =>
    match p.pc with
    | .coin values => some (p.afterCoin values s)
    | _ => none

/-! ## what a call has done -/

def outMsg : Out → Option Msg
  | .broadcast m => some m
  | _ => none

def outDecide : Out → Option Bool
  | .decide v => some v
  | _ => none

/-- the messages broadcast so far -/
def sent (p : Party n) : List Msg := p.trace.filterMap outMsg

/-- the calls of `decide` so far -/
def decisions (p : Party n) : List Bool := p.trace.filterMap outDecide

end Party

/-- `binaryagreement` at every party -/
def protocol (C : Committee) : Async.Protocol C.N (Party C.N) Msg Party.Act where
  init _ := Party.init
  listening p := decide (p.recvLoop = .running)
  recv _ sender m p := p.recv C.f sender m
  act _ a p := p.act C.f a
  sentTo p _ := p.sent

end BA
