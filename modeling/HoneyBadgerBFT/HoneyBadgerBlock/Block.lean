import HoneyBadgerBFT.ThresholdEncryption.Shares

/-!
# One block of HoneyBadgerBFT

`honeybadgerBlock` is the function `honeybadger_block` of one party: what it makes of its proposal,
of the tuple `vall` from the common subset, and of the share vectors that have arrived so far, in
the order in which they came.  `pickle` is a parameter, with the objects of `PyObj`.

A pickle can run code, so bytes of a Byzantine party need not give the same object twice.  A call
unpickles each entry once in each of its two loops, and `Answers` says what it gets
(`honeybadgerBlockWith`); in `honeybadgerBlock` it gets what one function of the bytes gives.  Other
effects of such code are left out.

A share vector is a list; `none` in it is `None` or anything else that is no element of the group.
A vector that cannot be indexed is like the empty list: both raise at the first index.
-/

namespace Block
open TPKE

/-- `pickle.dumps` and `pickle.loads`; `none`: an exception -/
structure Pickle where
  dumps : PyObj → Option Bytes
  loads : Bytes → Option PyObj
  loads_dumps : ∀ U V W c v : Bytes,
    dumps (.seq [.seq [.bytes U, .bytes V, .bytes W], .bytes c]) = some v →
      loads v = some (.seq [.seq [.bytes U, .bytes V, .bytes W], .bytes c])

/-- how `pickle.loads` answers in one loop of a call, for each index of `vall` -/
abbrev Answers := ℕ → Pickle

inductive Outcome where
  | waiting
  | raised
  | returned (decryptions : List Bytes)
deriving DecidableEq

/-- the loop that fills `shares_received`; `none`: it waits for more -/
def receive {N : ℕ} {V : Type} (f : ℕ) :
    List (Fin N × V) → List (Fin N × V) → Option (List (Fin N × V))
  | [], received => if f + 1 ≤ received.length then some received else none
  | (j, shares) :: rest, received =>
    if f + 1 ≤ received.length then some received
    else if j ∈ received.map Prod.fst then receive f rest received
    else receive f rest (received ++ [(j, shares)])

/-- what the block asserts of `vall` -/
def Enough (N f : ℕ) (vall : List (Option Bytes)) : Prop :=
  vall.length = N ∧ N - f ≤ (vall.filterMap id).length

instance (N f : ℕ) (vall : List (Option Bytes)) : Decidable (Enough N f vall) :=
  inferInstanceAs (Decidable (_ ∧ _))

section
variable {p : ℕ} [Fact p.Prime] {G T : Type} [CommGroup G] [CommGroup T] [DecidableEq T]
  (E : Packages p G T) (P : Pickle)

def serializeUVW (U : G) (V : Bytes) (W : G) : Option (Bytes × Bytes × Bytes) :=
  let U := E.serialize U
  let W := E.serialize W
  if U.length = 65 ∧ V.length = 32 ∧ W.length = 65 then some (U, V, W) else none

def deserializeUVW (U V W : PyObj) : Option (G × PyObj × G) :=
  if U.len = some 65 ∧ V.len = some 32 ∧ W.len = some 65 then do
    let U ← U.bytesLike.bind E.deserialize1
    let W ← W.bytesLike.bind E.deserialize2
    some (U, V, W)
  else none

/-- `to_acs`, from the proposal `prop` and the random values `key`, `r` and `iv` -/
def propose (PK : PublicKey G) (prop : List ℕ) (key : Bytes) (r : ZMod p) (iv : Bytes) :
    Option Bytes := do
  let ciphertext ← TPKE.encrypt E key prop iv
  let (U, V, W) ← PK.encrypt E key r
  let (U, V, W) ← serializeUVW E U V W
  P.dumps (.seq [.seq [.bytes U, .bytes V, .bytes W], .bytes ciphertext])

/-- `(tkey, ciph) = pickle.loads(v)`, `tkey = deserialize_UVW(*tkey)` -/
def opened (v : Bytes) : Option ((G × PyObj × G) × PyObj) := do
  let x ← P.loads v
  match x.items with
  | some [tkey, ciph] =>
    match tkey.items with
    | some [U, V, W] => (deserializeUVW E U V W).map fun tkey => (tkey, ciph)
    | _ => none
  | _ => none

/-- the loop that makes `my_shares`, from the index `i` on -/
def mySharesFrom (A : Answers) (SK : PrivateKey p G) :
    ℕ → List (Option Bytes) → Option (List (Option G))
  | _, [] => some []
  | i, none :: vall => do
    let rest ← mySharesFrom A SK (i + 1) vall
    some (none :: rest)
  | i, some v :: vall => do
    let ((U, V, W), _) ← opened E (A i) v
    let share ← SK.decryptShare E U V W
    let rest ← mySharesFrom A SK (i + 1) vall
    some (some share :: rest)

/-- the loop that makes `decryptions`, from the index `i` on -/
def decryptFrom {N : ℕ} (A : Answers) (PK : PublicKey G)
    (received : List (Fin N × List (Option G))) : ℕ → List (Option Bytes) → Option (List Bytes)
  | _, [] => some []
  | i, none :: vall => decryptFrom A PK received (i + 1) vall
  | i, some v :: vall => do
    let svec ← received.mapM fun x => (x.2[i]?).map fun share => (x.1.val, share)
    let ((U, V, _), ciph) ← opened E (A i) v
    let key ← PK.combineShares E U V svec
    let plain ← TPKE.decrypt E key ciph
    let rest ← decryptFrom A PK received (i + 1) vall
    some (plain :: rest)

/-- `honeybadger_block` with the proposal `to_acs` (`none`: making it raises), and the answers of
`pickle.loads` in its two loops -/
def honeybadgerBlockWith (first second : Answers) (N f : ℕ) (PK : PublicKey G)
    (SK : PrivateKey p G) (to_acs : Option Bytes) (vall : List (Option Bytes))
    (arrivals : List (Fin N × List (Option G))) : Outcome :=
  match to_acs with
  | none => .raised
  | some _ =>
    if Enough N f vall then
      match mySharesFrom E first SK 0 vall with
      | none => .raised
      | some _ =>
        match receive f arrivals [] with
        | none => .waiting
        | some received =>
          match decryptFrom E second PK received 0 vall with
          | none => .raised
          | some decryptions => .returned decryptions
    else .raised

/-! ## where `pickle.loads` is a function of the bytes -/

def myShares (SK : PrivateKey p G) (vall : List (Option Bytes)) : Option (List (Option G)) :=
  mySharesFrom E (fun _ => P) SK 0 vall

def honeybadgerBlock (N f : ℕ) (PK : PublicKey G) (SK : PrivateKey p G) (to_acs : Option Bytes)
    (vall : List (Option Bytes)) (arrivals : List (Fin N × List (Option G))) : Outcome :=
  honeybadgerBlockWith E (fun _ => P) (fun _ => P) N f PK SK to_acs vall arrivals

end

end Block
