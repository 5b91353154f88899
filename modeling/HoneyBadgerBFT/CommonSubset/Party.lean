import HoneyBadgerBFT.Library.Bytes
import HoneyBadgerBFT.Library.Network

/-!
# Common subset: one call of `commonsubset`

`Party n` is the state of one call among `n` parties: the three arrays, the `2n` greenlets, and the
list `abaIn` of the calls `aba_in[j](v)`.  A greenlet blocks in `rbc_out[j]()` or `aba_out[j]()` and
runs to its end in one step when that call comes back; the main greenlet is cut at `joinall` and at
every turn of its loop.  No message is sent here, so the steps are all actions.

What the `2n` sub-protocols answer is up to the environment, within `SubProtocols`.
-/

namespace ACS

/-- the greenlet `_recv_rbc(j)` -/
inductive RThread where
  | waiting
  | done (m : Bytes)
  | raised
  | killed
deriving DecidableEq

/-- what `rbc_out[j]()` has returned to the greenlet -/
def RThread.output : RThread → Option Bytes
  | .done m => some m
  | _ => none

/-- the main greenlet -/
inductive Main (n : ℕ) where
  | joining
  | scanning (j : ℕ)
  | returned (values : Fin n → Option Bytes)
  | fewCommitted
  | noValue

structure Party (n : ℕ) where
  abaInputted : Fin n → Bool
  abaValues : Fin n → Bool
  rbcValues : Fin n → Option Bytes
  rThreads : Fin n → RThread
  aThreads : Fin n → Option Bool
  abaIn : List (Fin n × Bool)
  main : Main n

inductive Act (n : ℕ) where
  | rbcOut (j : Fin n) (m : Bytes)
  | rbcRaise (j : Fin n)
  | abaOut (j : Fin n) (v : Bool)
  | main

namespace Party
variable {n : ℕ}

def init : Party n where
  abaInputted := fun _ => false
  abaValues := fun _ => false
  rbcValues := fun _ => none
  rThreads := fun _ => .waiting
  aThreads := fun _ => none
  abaIn := []
  main := .joining

/-- `if not aba_inputted[j]: aba_inputted[j] = True; aba_in[j](v)` -/
def provide (v : Bool) (p : Party n) (j : Fin n) : Party n :=
  if p.abaInputted j = true then p
  else { p with abaInputted := Function.update p.abaInputted j true, abaIn := (j, v) :: p.abaIn }

/-- `sum(aba_values)` -/
def sumValues (p : Party n) : ℕ := (Finset.univ.filter fun j => p.abaValues j = true).card

/-- `_recv_rbc(j)`, from the return of `rbc_out[j]()` -/
def recvRbc (j : Fin n) (m : Bytes) (p : Party n) : Option (Party n) :=
  if p.rThreads j = .waiting then
    some (provide true
      { p with
        rbcValues := Function.update p.rbcValues j (some m)
        rThreads := Function.update p.rThreads j (.done m) } j)
  else none

/-- `rbc_out[j]()` raises -/
def raiseRbc (j : Fin n) (p : Party n) : Option (Party n) :=
  if p.rThreads j = .waiting then
    some { p with rThreads := Function.update p.rThreads j .raised }
  else none

/-- `_recv_aba(j)`, from the return of `aba_out[j]()` -/
def recvAba (N f : ℕ) (j : Fin n) (v : Bool) (p : Party n) : Option (Party n) :=
  if p.aThreads j = none then
    let p :=
      { p with
        abaValues := Function.update p.abaValues j v
        aThreads := Function.update p.aThreads j (some v) }
    some (if N - f ≤ p.sumValues then (List.finRange n).foldl (provide false) p else p)
  else none

/-- `r_threads[j].kill()`, `rbc_values[j] = None` -/
def drop (j : Fin n) (p : Party n) : Party n :=
  { p with
    rThreads :=
      if p.rThreads j = .waiting then Function.update p.rThreads j .killed else p.rThreads
    rbcValues := Function.update p.rbcValues j none }

/-- the main greenlet, to its next wait or its next turn -/
def mainStep (N f : ℕ) (p : Party n) : Option (Party n) :=
  match p.main with
  | .joining =>
    if ∀ j, p.aThreads j ≠ none then
      some { p with main := if N - f ≤ p.sumValues then .scanning 0 else .fewCommitted }
    else none
  | .scanning j =>
    if h : j < n then
      if p.abaValues ⟨j, h⟩ = true then
        if p.rThreads ⟨j, h⟩ = .waiting then none
        else some { p with
          main := if p.rbcValues ⟨j, h⟩ ≠ none then .scanning (j + 1) else .noValue }
      else some { p.drop ⟨j, h⟩ with main := .scanning (j + 1) }
    else some { p with main := .returned p.rbcValues }
  | _ => none

def act (N f : ℕ) : Act n → Party n → Option (Party n)
  | .rbcOut j m, p => p.recvRbc j m
  | .rbcRaise j, p => p.raiseRbc j
  | .abaOut j v, p => p.recvAba N f j v
  | .main, p => p.mainStep N f

end Party

variable (C : Committee)

/-- `commonsubset` at every party -/
def protocol : Async.Protocol C.N (Party C.N) Empty (Act C.N) where
  init _ := Party.init
  listening _ := false
  recv _ _ m _ := m.elim
  act _ a p := p.act C.N C.f a
  sentTo _ _ := []

abbrev State (C : Committee) := Async.Net C.N (Party C.N) Empty

/-- what is assumed of the sub-protocols, step by step: honest outputs of one broadcast are equal,
none is beside an exception, honest outputs of one agreement are equal, and one comes after the same
input of an honest party -/
def SubProtocols (s : State C) : Async.Label C.N Empty (Act C.N) → Prop
  | .act _ (.rbcOut j m) => ∀ q, C.Honest q →
      (s q).st.rThreads j ≠ .raised ∧ ∀ m' ∈ ((s q).st.rThreads j).output, m' = m
  | .act _ (.rbcRaise j) => ∀ q, C.Honest q → ((s q).st.rThreads j).output = none
  | .act _ (.abaOut j v) => (∀ q, C.Honest q → ∀ v' ∈ (s q).st.aThreads j, v' = v) ∧
      ∃ q, C.Honest q ∧ (j, v) ∈ (s q).st.abaIn
  | _ => True

abbrev Reached (s : State C) : Prop := (protocol C).Reachable (fun _ => true) (SubProtocols C) s

end ACS
