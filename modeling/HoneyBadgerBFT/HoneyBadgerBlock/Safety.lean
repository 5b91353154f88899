import HoneyBadgerBFT.HoneyBadgerBlock.Entries
import HoneyBadgerBFT.HoneyBadgerBlock.Pickle
import HoneyBadgerBFT.Library.Quorum

/-!
# One block of HoneyBadgerBFT: agreement

Two calls may use the shares of different senders, and of Byzantine ones; what they return is the
plaintexts of `vall` all the same (`plaintexts_of_returnedWith`), since no other share passes the
check.  But an entry of a Byzantine party may unpickle to another ciphertext at each of them.

* `returned_iff`, `raised_iff`   how a call ends;
* `block_agreement`              calls that return, return the same tuple, if they have unpickled
                                 the same objects;
* `random_entry_differs`         the entry that calls `os.urandom`.
-/

set_option linter.unusedSectionVars false

namespace Block
open TPKE

variable {p : ℕ} [Fact p.Prime] {G T : Type} [CommGroup G] [CommGroup T] [DecidableEq T]
  {E : Packages p G T} {P : Pickle}

/-! ## one call -/

section
variable {N f : ℕ} {first second : Answers} {PK : PublicKey G} {SK : PrivateKey p G}
  {to_acs : Option Bytes} {vall : List (Option Bytes)} {arrivals : List (Fin N × List (Option G))}

theorem returnedWith_iff {ds : List Bytes} :
    honeybadgerBlockWith E first second N f PK SK to_acs vall arrivals = .returned ds ↔
      to_acs ≠ none ∧ Enough N f vall ∧ mySharesFrom E first SK 0 vall ≠ none ∧
        ∃ received, receive f arrivals [] = some received ∧
          decryptFrom E second PK received 0 vall = some ds := by
  unfold honeybadgerBlockWith
  cases to_acs with
  | none => simp
  | some v =>
    by_cases hlen : Enough N f vall
    · rw [if_pos hlen]
      cases hshares : mySharesFrom E first SK 0 vall with
      | none => simp
      | some shares =>
        cases hrec : receive f arrivals [] with
        | none => simp
        | some received =>
          cases hdec : decryptFrom E second PK received 0 vall <;> simp [hdec, hlen]
    · simp [hlen]

theorem raisedWith_iff :
    honeybadgerBlockWith E first second N f PK SK to_acs vall arrivals = .raised ↔
      to_acs = none ∨ ¬ Enough N f vall ∨ mySharesFrom E first SK 0 vall = none ∨
        ∃ received, receive f arrivals [] = some received ∧
          decryptFrom E second PK received 0 vall = none := by
  unfold honeybadgerBlockWith
  cases to_acs with
  | none => simp
  | some v =>
    by_cases hlen : Enough N f vall
    · rw [if_pos hlen]
      cases hshares : mySharesFrom E first SK 0 vall with
      | none => simp
      | some shares =>
        cases hrec : receive f arrivals [] with
        | none => simp [hlen]
        | some received =>
          cases hdec : decryptFrom E second PK received 0 vall <;> simp [hdec, hlen]
    · simp [hlen]

theorem returned_iff {ds : List Bytes} :
    honeybadgerBlock E P N f PK SK to_acs vall arrivals = .returned ds ↔
      to_acs ≠ none ∧ Enough N f vall ∧ myShares E P SK vall ≠ none ∧
        ∃ received, receive f arrivals [] = some received ∧
          decryptFrom E (fun _ => P) PK received 0 vall = some ds := returnedWith_iff

theorem raised_iff :
    honeybadgerBlock E P N f PK SK to_acs vall arrivals = .raised ↔
      to_acs = none ∨ ¬ Enough N f vall ∨ myShares E P SK vall = none ∨
        ∃ received, receive f arrivals [] = some received ∧
          decryptFrom E (fun _ => P) PK received 0 vall = none := raisedWith_iff

/-- a call that waits has passed its assertions -/
theorem waiting_spec (h : honeybadgerBlock E P N f PK SK to_acs vall arrivals = .waiting) :
    Enough N f vall ∧ (∃ shares, myShares E P SK vall = some shares) ∧
      receive f arrivals [] = none := by
  unfold honeybadgerBlock honeybadgerBlockWith at h
  cases to_acs with
  | none => cases h
  | some v =>
    dsimp only at h
    split at h
    · next hlen =>
      split at h
      · cases h
      · next shares hshares =>
        split at h
        · next hrec => exact ⟨hlen, ⟨shares, hshares⟩, hrec⟩
        · split at h <;> cases h
    · cases h

end

/-! ## the keys of the dealer -/

section
variable {C : Committee} {secret : ZMod p} {rest : List (ZMod p)} {PK : PublicKey G}
  {SKs : List (PrivateKey p G)} (hN : C.N < p)
  (hdeal : dealer E C.N (C.f + 1) secret rest = some (PK, SKs))
include hdeal

theorem key_eq (j : Fin C.N) {SK : PrivateKey p G} (hSK : SKs[j.val]? = some SK) :
    SK.SK = secretKey (secret :: rest) j := by
  obtain ⟨-, -, hkeys⟩ := dealer_spec hdeal
  rw [← Option.some.inj ((hkeys j j.isLt).symm.trans hSK)]
  rfl

include hN

/-- **the second loop** with the vectors that a call has received -/
theorem decryptFrom_received (A : Answers) {arrivals received : List (Fin C.N × List (Option G))}
    (hrec : receive C.f arrivals [] = some received) (vall : List (Option Bytes))
    (ds : List Bytes) :
    decryptFrom E A PK received 0 vall = some ds ↔
      (∀ n v, vall[n]? = some (some v) → ∀ x, Early C.f arrivals x →
        RightShare E (A n) (secretKey (secret :: rest) x.1) x.2 n v) ∧
      plaintextsFrom E A secret 0 vall = some ds := by
  obtain ⟨ha, rfl, -⟩ := dealer_spec hdeal
  obtain ⟨hlen, hnodup, hmem⟩ := receive_spec hrec
  rw [decryptFrom_iff hN ha hnodup hlen, eval_zero_poly]
  refine and_congr_left fun _ => forall_congr' fun n => forall_congr' fun v => ?_
  refine imp_congr_right fun _ => forall_congr' fun x => ?_
  rw [hmem x, Nat.zero_add]

theorem decrypt_received {arrivals received : List (Fin C.N × List (Option G))}
    (hrec : receive C.f arrivals [] = some received) (vall : List (Option Bytes))
    (ds : List Bytes) :
    decryptFrom E (fun _ => P) PK received 0 vall = some ds ↔
      (∀ n v, vall[n]? = some (some v) → ∀ x, Early C.f arrivals x →
        RightShare E P (secretKey (secret :: rest) x.1) x.2 n v) ∧
      (vall.filterMap id).mapM (plaintext E P secret) = some ds := by
  rw [decryptFrom_received hN hdeal _ hrec, plaintextsFrom_const]

section
variable {SK : PrivateKey p G} {to_acs : Option Bytes} {vall : List (Option Bytes)}
  {arrivals : List (Fin C.N × List (Option G))} {ds : List Bytes}

/-- what a call returns: the plaintexts of what it has unpickled in its second loop -/
theorem plaintexts_of_returnedWith {first second : Answers}
    (h : honeybadgerBlockWith E first second C.N C.f PK SK to_acs vall arrivals = .returned ds) :
    plaintextsFrom E second secret 0 vall = some ds := by
  obtain ⟨-, -, -, received, hrec, hdec⟩ := returnedWith_iff.mp h
  exact ((decryptFrom_received hN hdeal second hrec vall ds).mp hdec).2

theorem plaintexts_of_returned
    (h : honeybadgerBlock E P C.N C.f PK SK to_acs vall arrivals = .returned ds) :
    (vall.filterMap id).mapM (plaintext E P secret) = some ds := by
  rw [← plaintextsFrom_const P secret vall 0]
  exact plaintexts_of_returnedWith hN hdeal h

end

end

/-! ## four parties -/

/-- the party 3 is Byzantine -/
def four : Committee := Committee.four

namespace four

def PK : PublicKey Z5 := publicKey five 4 2 [2, 1]

def SK (i : ℕ) : PrivateKey 5 Z5 := privateKey five 4 2 [2, 1] i

theorem dealt :
    dealer five four.N (four.f + 1) 2 [1] = some (PK, (List.range 4).map SK) :=
  dealer_eq (by decide) (by decide) 2 rfl

/-- `tx0` to `tx3` -/
def prop (i : Fin four.N) : List ℕ := [0x74, 0x78, 0x30 + i.val]

def proposal (i : Fin four.N) : Option Bytes :=
  propose five protocol3 PK (prop i) (List.replicate 32 (i.val.toUInt8 + 1)) (i.val + 1)
    (List.replicate 16 (i.val.toUInt8 + 7))

/-- the common subset with `o` for the Byzantine party -/
def vall (o : Option Bytes) : List (Option Bytes) :=
  (List.finRange four.N).map fun i => if four.Honest i then proposal i else o

/-- the vector of the party `i` -/
def vectorOn (o : Option Bytes) (i : Fin four.N) : List (Option Z5) :=
  (myShares five protocol3 (SK i) (vall o)).getD []

def vector (i : Fin four.N) : List (Option Z5) := vectorOn none i

/-- the call of the party `i` -/
def call (i : Fin four.N) (o : Option Bytes) (arrivals : List (Fin four.N × List (Option Z5))) :
    Outcome :=
  honeybadgerBlock five protocol3 four.N four.f PK (SK i) (proposal i) (vall o) arrivals

/-- where `os.urandom` gives `b` and then zeros -/
def answers (b : UInt8) : Answers := fun _ => machine fun n => (b :: List.replicate n 0).take n

def vectorWith (b : UInt8) (i : Fin four.N) (o : Option Bytes) : List (Option Z5) :=
  (mySharesFrom five (answers b) (SK i) 0 (vall o)).getD []

/-- the call of the party `i` with these answers -/
def callWith (b : UInt8) (i : Fin four.N) (o : Option Bytes)
    (arrivals : List (Fin four.N × List (Option Z5))) : Outcome :=
  honeybadgerBlockWith five (answers b) (answers b) four.N four.f PK (SK i) (proposal i) (vall o)
    arrivals

/-- a pickle of the pair of a right triple and `os.urandom(32)` -/
def randomEntry : Option Bytes := do
  let (U, V, W) ← PK.encrypt five (List.replicate 32 4) 4
  let (U, V, W) ← serializeUVW five U V W
  let U ← pickleBytes U
  let V ← pickleBytes V
  let W ← pickleBytes W
  some ([0x80, 3] ++ (U ++ (V ++ (W ++ ([0x87, 0x63] ++ (urandomName ++
    [32, 0x85, 0x52, 0x86, 0x2e]))))))

end four

/-! ## agreement -/

/-- the entries unpickle to the same objects -/
def SameObjects (A A' : Answers) (vall : List (Option Bytes)) : Prop :=
  ∀ n v, vall[n]? = some (some v) → (A n).loads v = (A' n).loads v

/-- **agreement**: two calls with the same tuple from the common subset that return, return the same
tuple, whatever vectors the two got and from whom, if the entries unpickle to the same objects in
their second loops; exactly, if the objects at each index have one plaintext -/
theorem block_agreement (E : Packages p G T) (C : Committee) (hN : C.N < p)
    (secret : ZMod p) (rest : List (ZMod p)) (PK : PublicKey G) (SKs : List (PrivateKey p G))
    (hdeal : dealer E C.N (C.f + 1) secret rest = some (PK, SKs)) (vall : List (Option Bytes))
    (first second first' second' : Answers) (SK SK' : PrivateKey p G) (to_acs to_acs' : Option Bytes)
    (arrivals arrivals' : List (Fin C.N × List (Option G))) (ds ds' : List Bytes)
    (h : honeybadgerBlockWith E first second C.N C.f PK SK to_acs vall arrivals = .returned ds)
    (h' : honeybadgerBlockWith E first' second' C.N C.f PK SK' to_acs' vall arrivals' =
      .returned ds') :
    (SameObjects second second' vall → ds = ds') ∧
      (ds = ds' ↔ ∀ n v, vall[n]? = some (some v) →
        plaintext E (second n) secret v = plaintext E (second' n) secret v) := by
  have hiff : ds = ds' ↔ ∀ n v, vall[n]? = some (some v) →
      plaintext E (second n) secret v = plaintext E (second' n) secret v := by
    have heq := plaintexts_eq_iff secret vall 0 ds ds' (plaintexts_of_returnedWith hN hdeal h)
      (plaintexts_of_returnedWith hN hdeal h')
    simpa only [Nat.zero_add] using heq
  exact ⟨fun hsame => hiff.mpr fun n v hv => plaintext_congr (hsame n v hv) secret, hiff⟩

/-- `os.urandom` gives the two calls different bytes, but no entry asks for any -/
theorem block_agreement_four : ∃ ds ds',
    four.callWith 1 0 none [(0, four.vector 0), (1, four.vector 1)] = .returned ds ∧
    four.callWith 2 1 none [(3, four.vector 3), (3, []), (2, four.vector 2)] = .returned ds' ∧
      ds = ds' := by
  have hcalls : four.callWith 1 0 none [(0, four.vector 0), (1, four.vector 1)] =
        .returned [[0x74, 0x78, 0x30], [0x74, 0x78, 0x31], [0x74, 0x78, 0x32]] ∧
      four.callWith 2 1 none [(3, four.vector 3), (3, []), (2, four.vector 2)] =
        .returned [[0x74, 0x78, 0x30], [0x74, 0x78, 0x31], [0x74, 0x78, 0x32]] := by
    decide +kernel
  obtain ⟨h, h'⟩ := hcalls
  refine ⟨_, _, h, h', (block_agreement five four (by decide) 2 [1] four.PK _ four.dealt
    (four.vall none) _ _ _ _ _ _ _ _ _ _ _ _ h h').1 fun n v hv => ?_⟩
  obtain ⟨i, -, hi⟩ := List.mem_map.mp (List.mem_of_getElem? hv)
  split at hi
  · have hloads : ∀ b, (four.answers b n).loads v = protocol3.loads v :=
      fun b => propose_loads (show (four.answers b n).dumps = protocol3.dumps from rfl) hi
    rw [hloads, hloads]
  · cases hi

/-- the Byzantine party proposes the pickle that calls `os.urandom`, and two calls that use the same
vectors return different tuples -/
theorem random_entry_differs :
    let entry := four.randomEntry
    let arrivals := [(0, four.vectorWith 1 0 entry), (1, four.vectorWith 2 1 entry)]
    ∃ ds ds', four.callWith 1 0 entry arrivals = .returned ds ∧
      four.callWith 2 1 entry arrivals = .returned ds' ∧ ds ≠ ds' := by
  refine ⟨[[0x74, 0x78, 0x30], [0x74, 0x78, 0x31], [0x74, 0x78, 0x32],
    5 :: List.replicate 11 4], [[0x74, 0x78, 0x30], [0x74, 0x78, 0x31], [0x74, 0x78, 0x32],
    6 :: List.replicate 11 4], ?_⟩
  decide +kernel

end Block
