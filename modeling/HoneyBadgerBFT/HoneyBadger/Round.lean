import HoneyBadgerBFT.BinaryAgreement.Party
import HoneyBadgerBFT.CommonCoin.Party
import HoneyBadgerBFT.CommonSubset.Party
import HoneyBadgerBFT.HoneyBadger.Routing
import HoneyBadgerBFT.ReliableBroadcast.Party

/-!
# HoneyBadgerBFT: one call of `_run_round`

`Round n G₁ G` is the state of one call among `n` parties: its `n` reliable broadcasts, `n` binary
agreements with their coins, the common subset and the block.  The states of the sub-protocols are
those of their own models; what `_run_round` adds is the wiring, one action of `Round.Act` for each
place where a value goes from one sub-protocol to another.

The closures of `_setup` give the queues `aba_inputs[j]`, `aba_outputs[j]` and `my_rbc_input` of one
place to both ends: `aba_inputs[j]` holds what the common subset has put (`abaIn`), `aba_outputs[j]`
what the agreement has decided, and `my_rbc_input` is `toAcs`.

`rcvd i` is no variable of the code: it holds the messages that the instance `i` has taken from its
queue, newest first, so their number is the place of the next one.
-/

namespace HoneyBadger

/-- the threshold signatures of a committee, with the keys of a dealer -/
structure Tsig (C : Committee) where
  p : ℕ
  G₁ : Type
  G₂ : Type
  T : Type
  [prime : Fact p.Prime]
  [group₁ : CommGroup G₁]
  [group₂ : CommGroup G₂]
  [groupT : CommGroup T]
  [eq₁ : DecidableEq G₁]
  [eqT : DecidableEq T]
  charm : TSIG.Charm p G₁ G₂ T
  secret : ZMod p
  rest : List (ZMod p)
  sPK : TSIG.PublicKey G₂
  sSK : List (TSIG.PrivateKey p G₂)
  lt : C.N < p
  dealt : TSIG.dealer charm C.N (C.f + 1) secret rest = some (sPK, sSK)

/-- the threshold encryption of a committee, with the keys of a dealer -/
structure Tpke (C : Committee) where
  p : ℕ
  G : Type
  T : Type
  [prime : Fact p.Prime]
  [group : CommGroup G]
  [groupT : CommGroup T]
  [eqG : DecidableEq G]
  [eqT : DecidableEq T]
  packages : TPKE.Packages p G T
  secret : ZMod p
  rest : List (ZMod p)
  ePK : TPKE.PublicKey G
  eSK : Fin C.N → TPKE.PrivateKey p G
  lt : C.N < p
  dealt : TPKE.dealer packages C.N (C.f + 1) secret rest = some (ePK, List.ofFn eSK)

attribute [instance] Tsig.prime Tsig.group₁ Tsig.group₂ Tsig.groupT Tsig.eq₁ Tsig.eqT
attribute [instance] Tpke.prime Tpke.group Tpke.groupT Tpke.eqG Tpke.eqT

/-- what the parties of a committee share -/
structure Setup (C : Committee) where
  /-- the base name of the coins -/
  sid : Str
  B : ℕ
  tsig : Tsig C
  tpke : Tpke C
  zfec : RBC.Zfec (C.N - 2 * C.f) C.N
  H : RBC.Digest
  pickle : Block.Pickle
  /-- `str((sid, r))` -/
  str : Str → ℤ → Str
  /-- the limit of `zfec` -/
  small : C.N ≤ 256

instance {C : Committee} (S : Setup C) : Fact S.tsig.p.Prime := S.tsig.prime

instance {C : Committee} (S : Setup C) : Fact S.tpke.p.Prime := S.tpke.prime

/-- what the sub-protocols send to each other -/
inductive Payload (G₁ G : Type) where
  | coin (m : Coin.Share G₁)
  | aba (m : BA.Msg)
  | rbc (m : RBC.Msg)
  | tpke (shares : List (Option G))
deriving DecidableEq

/-- `str(r)` of an integer -/
def decimal : ℤ → Str
  | .ofNat n => (Nat.toDigits 10 n).map Char.toNat
  | .negSucc n => '-'.toNat :: (Nat.toDigits 10 (n + 1)).map Char.toNat

namespace Setup
variable {C : Committee} (S : Setup C)

/-- the name of the coin `j` of the round `r` -/
def coinSid (r : ℤ) (j : Fin C.N) : Str :=
  S.sid ++ (':'.toNat :: decimal r) ++ ['C', 'O', 'I', 'N'].map Char.toNat ++ decimal j.val

/-- the reliable broadcast `j` -/
def rbc (j : Fin C.N) : RBC.Setup C := ⟨j, S.zfec, S.H⟩

/-- the coin `j` of the round `r` -/
def coin (r : ℤ) (j : Fin C.N) :
    Async.Protocol C.N (Coin.Party C.N S.tsig.G₁) (Coin.Share S.tsig.G₁) Coin.Act :=
  Coin.protocol S.tsig.charm S.str (S.coinSid r j) C S.tsig.sPK S.tsig.sSK

end Setup

structure Round (n : ℕ) (G₁ G : Type) where
  rbc : Fin n → RBC.Party n
  aba : Fin n → BA.Party n
  coin : Fin n → Coin.Party n G₁
  acs : ACS.Party n
  toAcs : Option Bytes
  vall : Option (List (Option Bytes))
  myShares : Option (List (Option G))
  rcvd : Instance n → List (Fin n × Payload G₁ G)

abbrev Setup.Data {C : Committee} (S : Setup C) := Payload S.tsig.G₁ S.tpke.G

abbrev Setup.Call {C : Committee} (S : Setup C) := Round C.N S.tsig.G₁ S.tpke.G

namespace Round

/-- `rbcInput`: `input()` of the own broadcast returns; `rbcOut j`: `rbc_out[j]()` ends;
`abaInput j`: `input()` of the agreement returns; `abaMain j`: the agreement goes on to its next test,
or to its call of the coin; `coinTake j`: this call returns; `abaOut j`: `aba_out[j]()` returns;
`acsMain`: the main greenlet of the common subset; `acsOut`: `acs_out()` returns -/
inductive Act (n : ℕ) where
  | rbcInput
  | rbcOut (j : Fin n)
  | abaInput (j : Fin n)
  | abaMain (j : Fin n)
  | coinTake (j : Fin n)
  | abaOut (j : Fin n)
  | acsMain
  | acsOut

section
variable {n : ℕ} {G₁ G : Type}

/-- `rbc_outputs[j]()` -/
def rbcOutputs (x : Round n G₁ G) (j : Fin n) : Option (ACS.Act n) :=
  match (x.rbc j).status with
  | .returned m => some (.rbcOut j m)
  | .raised => some (.rbcRaise j)
  | _ => none

/-- `aba_inputs[j].get()` -/
def abaInputs (x : Round n G₁ G) (j : Fin n) : Option Bool :=
  (x.acs.abaIn.reverse.find? fun y => decide (y.1 = j)).map Prod.snd

/-- `aba_outputs[j].get()` -/
def abaOutputs (x : Round n G₁ G) (j : Fin n) : Option Bool := (x.aba j).decisions.getLast?

/-- the round for which the agreement has come to `coin(r)` -/
def coinCall (p : BA.Party n) : Option ℕ :=
  match p.pc with
  | .coin _ => some p.r.toNat
  | _ => none

/-- the vectors that `tpke_recv()` has returned, in the order of their arrival -/
def arrivals (x : Round n G₁ G) : List (Fin n × List (Option G)) :=
  (x.rcvd .TPKE).reverse.filterMap fun y =>
    match y.2 with
    | .tpke shares => some (y.1, shares)
    | _ => none

end

variable {C : Committee} (S : Setup C)

/-- the call of `_run_round(r, tx, ..)` up to the `acs_out()` of its block, with the random values
that the block draws -/
def start (pid : Fin C.N) (r : ℤ) (tx : Str) (key : Bytes) (rnd : ZMod S.tpke.p) (iv : Bytes) :
    S.Call where
  rbc j := (RBC.protocol (S.rbc j)).init pid
  aba _ := (BA.protocol C).init pid
  coin j := (S.coin r j).init pid
  acs := (ACS.protocol C).init pid
  toAcs := Block.propose S.tpke.packages S.pickle S.tpke.ePK tx key rnd iv
  vall := none
  myShares := none
  rcvd _ := []

/-- how the call has ended -/
def outcome (pid : Fin C.N) (x : S.Call) : Block.Outcome :=
  if x.toAcs = none then .raised
  else
    match x.vall with
    | some vall => Block.honeybadgerBlock S.tpke.packages S.pickle C.N C.f S.tpke.ePK
        (S.tpke.eSK pid) x.toAcs vall x.arrivals
    | none =>
      match x.acs.main with
      | .fewCommitted => .raised
      | .noValue => .raised
      | _ => .waiting

/-- the instance `i` is in its `receive()` -/
def listening (r : ℤ) (pid : Fin C.N) (x : S.Call) : Instance C.N → Bool
  | .ACS_RBC j => (RBC.protocol (S.rbc j)).listening (x.rbc j)
  | .ACS_ABA j => (BA.protocol C).listening (x.aba j)
  | .ACS_COIN j => (S.coin r j).listening (x.coin j)
  | .TPKE => decide (x.vall ≠ none ∧ x.outcome S pid = .waiting)

/-- the `receive()` of the instance `i` returns `(src, m)`, and the instance goes on to the next
one; messages of another kind are left out by `wellFormed` -/
def recv (r : ℤ) (pid src : Fin C.N) (i : Instance C.N) (m : S.Data) (x : S.Call) :
    S.Call :=
  let x := { x with rcvd := Function.update x.rcvd i ((src, m) :: x.rcvd i) }
  match i, m with
  | .ACS_RBC j, .rbc m =>
    { x with rbc := Function.update x.rbc j ((RBC.protocol (S.rbc j)).recv pid src m (x.rbc j)) }
  | .ACS_ABA j, .aba m =>
    { x with aba := Function.update x.aba j ((BA.protocol C).recv pid src m (x.aba j)) }
  | .ACS_COIN j, .coin m =>
    { x with coin := Function.update x.coin j ((S.coin r j).recv pid src m (x.coin j)) }
  | _, _ => x

/-- `coin(r)` is called where the agreement has come to it -/
def callCoin (r : ℤ) (pid j : Fin C.N) (x : S.Call) : Option S.Call :=
  match coinCall (x.aba j) with
  | some k => ((S.coin r j).act pid (.getCoin k) (x.coin j)).map fun y =>
      { x with coin := Function.update x.coin j y }
  | none => some x

/-- the vector of shares that the block makes of `vall`, if it comes to this -/
def shares (pid : Fin C.N) (vall : List (Option Bytes)) : Option (List (Option S.tpke.G)) :=
  if Block.Enough C.N C.f vall then Block.myShares S.tpke.packages S.pickle (S.tpke.eSK pid) vall
  else none

def act (r : ℤ) (pid : Fin C.N) (x : S.Call) : Act C.N → Option S.Call
  | .rbcInput => do
    let m ← x.toAcs
    let y ← (RBC.protocol (S.rbc pid)).act pid (.bytes m) (x.rbc pid)
    some { x with rbc := Function.update x.rbc pid y }
  | .rbcOut j => do
    let b ← x.rbcOutputs j
    let y ← (ACS.protocol C).act pid b x.acs
    some { x with acs := y }
  | .abaInput j => do
    let v ← x.abaInputs j
    let y ← (BA.protocol C).act pid (.input v) (x.aba j)
    some { x with aba := Function.update x.aba j y }
  | .abaMain j => do
    let y ← (BA.protocol C).act pid .main (x.aba j)
    callCoin S r pid j { x with aba := Function.update x.aba j y }
  | .coinTake j => do
    let bit ← ((x.coin j).outputQueue (x.aba j).r.toNat).head?
    let y ← (S.coin r j).act pid (.take (x.aba j).r.toNat) (x.coin j)
    let z ← (BA.protocol C).act pid (.coin bit) (x.aba j)
    some { x with coin := Function.update x.coin j y, aba := Function.update x.aba j z }
  | .abaOut j => do
    let v ← x.abaOutputs j
    let y ← (ACS.protocol C).act pid (.abaOut j v) x.acs
    some { x with acs := y }
  | .acsMain => do
    let y ← (ACS.protocol C).act pid .main x.acs
    some { x with acs := y }
  | .acsOut =>
    match x.toAcs, x.vall, x.acs.main with
    | some _, none, .returned values =>
      let vall := List.ofFn values
      some { x with vall := some vall, myShares := shares S pid vall }
    | _, _, _ => none

/-- what the sub-protocols `j` have sent to the party `i` -/
def sentBy (x : S.Call) (j i : Fin C.N) : List (Packet S.Data) :=
  (((RBC.protocol (S.rbc j)).sentTo (x.rbc j) i).map fun m => ⟨.ACS_RBC, j.val, .rbc m⟩) ++
  (((BA.protocol C).sentTo (x.aba j) i).map fun m => ⟨.ACS_ABA, j.val, .aba m⟩) ++
  ((x.coin j).sent.map fun m => ⟨.ACS_COIN, j.val, .coin m⟩)

/-- what the call has sent to the party `i` -/
def sentTo (x : S.Call) (i : Fin C.N) : List (Packet S.Data) :=
  ((List.finRange C.N).flatMap fun j => x.sentBy S j i) ++
    x.myShares.toList.map fun shares => ⟨.TPKE, 0, .tpke shares⟩

end Round

end HoneyBadger
