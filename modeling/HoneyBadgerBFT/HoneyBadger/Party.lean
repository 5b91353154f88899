import HoneyBadgerBFT.Library.Bytes
import HoneyBadgerBFT.Library.Transition
import Mathlib.Logic.Function.Basic

/-!
# HoneyBadgerBFT: the rounds of one party

`Party N M` is the state of one object of the class `HoneyBadgerBFT` whose method `run` has been
called: the transaction buffer, the dictionary `_per_round_recv`, and for every round the queues of
its sub-protocols.  `M` is the type of what the sub-protocols send to each other.

Three kinds of greenlets run: `_recv` (`receive`), the main loop of `run` (`start` up to the call of
`_run_round`, `finish` from its return), and the `broadcast_receiver_loop` of each round (`route`).
`_run_round` itself is an oracle: it returns the plaintexts of a block or raises.  `submit_tx` may
come in between at any time, also between two rounds, where the code's scheduler does not let it.

`trace` is no variable of the code: it holds the actions so far.
-/

namespace HoneyBadger

/-- a `str`, given by its code points -/
abbrev Str := List ℕ

/-- the tags of `BroadcastTag`, and any other value -/
inductive Tag where
  | ACS_COIN | ACS_RBC | ACS_ABA | TPKE
  | other (value : String)
deriving DecidableEq

/-- the part `(tag, j, msg)` of a message -/
structure Packet (M : Type) where
  tag : Tag
  j : ℤ
  msg : M

abbrev Queue (N : ℕ) (M : Type) := List (Fin N × M)

structure BroadcastReceiverQueues (N : ℕ) (M : Type) where
  ACS_COIN : Fin N → Queue N M
  ACS_ABA : Fin N → Queue N M
  ACS_RBC : Fin N → Queue N M
  TPKE : Queue N M

/-- a `broadcast_receiver_loop` has not been spawned, runs, or has died of an exception -/
inductive Loop where
  | unborn | running | unknownTagError | indexError
deriving DecidableEq

/-- the greenlet `_recv` runs, or has died of its assertion -/
inductive RecvThread where
  | running | assertionError
deriving DecidableEq

/-- `run`: before a round, in `_run_round` with the transaction it proposes, or at its end -/
inductive Main where
  | top
  | inRound (tx : Str)
  | finished
  | indexError
  | raised
deriving DecidableEq

inductive Act (N : ℕ) (M : Type) where
  | submit (tx : Str)
  | start
  | finish (newTx : List Bytes)
  | fail
  | receive (sender : Fin N) (r : ℤ) (x : Packet M)
  | route (r : ℤ)

structure Party (N : ℕ) (M : Type) where
  round : ℤ
  transactionBuffer : List Str
  perRoundRecv : ℤ → Option (Queue N (Packet M))
  recvThread : RecvThread
  main : Main
  queues : ℤ → BroadcastReceiverQueues N M
  loops : ℤ → Loop
  trace : List (Act N M)

/-- `l[j]` of a list of `N` elements; `none`: `IndexError` -/
def index (N : ℕ) (j : ℤ) : Option (Fin N) :=
  if h : 0 ≤ j ∧ j < N then some ⟨j.toNat, by omega⟩
  else if h : j < 0 ∧ -N ≤ j then some ⟨(j + N).toNat, by omega⟩
  else none

variable {N : ℕ} {M : Type}

namespace BroadcastReceiverQueues

def empty : BroadcastReceiverQueues N M := ⟨fun _ => [], fun _ => [], fun _ => [], []⟩

end BroadcastReceiverQueues

/-- `recv_queue[j].put_nowait(x)` -/
def putAt (j : ℤ) (x : Fin N × M) (q : Fin N → Queue N M) : Option (Fin N → Queue N M) :=
  (index N j).map fun k => Function.update q k (q k ++ [x])

/-- `broadcast_receiver`, from the return of `recv_func()`: the queues, or the exception -/
def broadcastReceiver (sender : Fin N) (x : Packet M) (q : BroadcastReceiverQueues N M) :
    BroadcastReceiverQueues N M ⊕ Loop :=
  match x.tag with
  | .other _ => .inr .unknownTagError
  | .TPKE => .inl { q with TPKE := q.TPKE ++ [(sender, x.msg)] }
  | .ACS_COIN =>
    match putAt x.j (sender, x.msg) q.ACS_COIN with
    | none => .inr .indexError
    | some c => .inl { q with ACS_COIN := c }
  | .ACS_ABA =>
    match putAt x.j (sender, x.msg) q.ACS_ABA with
    | none => .inr .indexError
    | some c => .inl { q with ACS_ABA := c }
  | .ACS_RBC =>
    match putAt x.j (sender, x.msg) q.ACS_RBC with
    | none => .inr .indexError
    | some c => .inl { q with ACS_RBC := c }

/-- `[_tx for _tx in buffer if _tx not in new_tx]`: the elements of `new_tx` are what
`tpke.decrypt` returns, which is `bytes` -/
def removeNew (newTx : List Bytes) (buffer : List Str) : List Str :=
  buffer.filter fun tx => decide (Text.str tx ∉ newTx.map Text.bytes)

namespace Party

def init : Party N M where
  round := 0
  transactionBuffer := []
  perRoundRecv := fun _ => none
  recvThread := .running
  main := .top
  queues := fun _ => .empty
  loops := fun _ => .unborn
  trace := []

/-- `submit_tx`, without its `print`, which raises before the `append` if `tx` has a lone surrogate -/
def submitTx (tx : Str) (p : Party N M) : Party N M :=
  { p with transactionBuffer := p.transactionBuffer ++ [tx] }

/-- one turn of `_recv` -/
def receive (sender : Fin N) (r : ℤ) (x : Packet M) (p : Party N M) : Party N M :=
  match p.perRoundRecv r with
  | some q => { p with perRoundRecv := Function.update p.perRoundRecv r (some (q ++ [(sender, x)])) }
  | none =>
    if p.round ≤ r then
      { p with perRoundRecv := Function.update p.perRoundRecv r (some [(sender, x)]) }
    else { p with recvThread := .assertionError }

/-- the head of the loop of `run`, up to the call of `_run_round` -/
def start (B : ℕ) (p : Party N M) : Party N M :=
  let p :=
    match p.perRoundRecv p.round with
    | some _ => p
    | none => { p with perRoundRecv := Function.update p.perRoundRecv p.round (some []) }
  match p.transactionBuffer.take B with
  | [] => { p with main := .indexError }
  | tx :: _ =>
    { p with main := .inRound tx, loops := Function.update p.loops p.round .running }

/-- the rest of the loop of `run`, from the return of `_run_round` -/
def finish (newTx : List Bytes) (p : Party N M) : Party N M :=
  let round := p.round + 1
  { p with
    transactionBuffer := removeNew newTx p.transactionBuffer
    round := round
    main := if 3 ≤ round then .finished else .top }

/-- one turn of the `broadcast_receiver_loop` of the round `r`, with the message `x` -/
def routeOne (r : ℤ) (x : Fin N × Packet M) (rest : Queue N (Packet M)) (p : Party N M) :
    Party N M :=
  let p := { p with perRoundRecv := Function.update p.perRoundRecv r (some rest) }
  match broadcastReceiver x.1 x.2 (p.queues r) with
  | .inl q => { p with queues := Function.update p.queues r q }
  | .inr e => { p with loops := Function.update p.loops r e }

def route (r : ℤ) (p : Party N M) : Option (Party N M) :=
  if p.loops r = .running then
    match p.perRoundRecv r with
    | some (x :: rest) => some (p.routeOne r x rest)
    | _ => none
  else none

def act (B : ℕ) : Act N M → Party N M → Option (Party N M)
  | .submit tx, p => some (p.submitTx tx)
  | .start, p => if p.main = .top then some (p.start B) else none
  | .finish newTx, p =>
    match p.main with
    | .inRound _ => some (p.finish newTx)
    | _ => none
  | .fail, p =>
    match p.main with
    | .inRound _ => some { p with main := .raised }
    | _ => none
  | .receive sender r x, p =>
    if p.recvThread = .running then some (p.receive sender r x) else none
  | .route r, p => p.route r

/-- one step, with its entry in `trace` -/
def next (B : ℕ) (p : Party N M) (a : Act N M) : Option (Party N M) :=
  (p.act B a).map fun p' => { p' with trace := p.trace ++ [a] }

end Party

/-- the states of the runs whose steps all meet `ok`, with batches of `B` transactions -/
def Reached (B : ℕ) (ok : Party N M → Act N M → Prop) (p : Party N M) : Prop :=
  Trans.Reach (Party.next B) ok Party.init p

theorem exists_exec (B : ℕ) (ok : Party N M → Act N M → Prop) [∀ p, DecidablePred (ok p)]
    (l : List (Act N M)) (good : Party N M → Bool)
    (h : (Trans.exec (Party.next B) (fun p a => decide (ok p a)) Party.init l).any good = true) :
    ∃ p, Reached B ok p ∧ good p = true :=
  Trans.exists_reach_of_exec (fun _ _ => of_decide_eq_true) h

/-- a run and one more step `a`, with a condition before it and one after it -/
theorem exists_exec_step (B : ℕ) (ok : Party N M → Act N M → Prop) [∀ p, DecidablePred (ok p)]
    (l : List (Act N M)) (a : Act N M) (pre post : Party N M → Prop) [DecidablePred pre]
    [DecidablePred post]
    (h : (Trans.exec (Party.next B) (fun p a => decide (ok p a)) Party.init l).any
      (fun p => decide (pre p) && (p.next B a).any fun p' => decide (post p')) = true) :
    ∃ p p', Reached B ok p ∧ p.next B a = some p' ∧ pre p ∧ post p' :=
  Trans.exists_step_of_exec (fun _ _ => of_decide_eq_true) h

end HoneyBadger
