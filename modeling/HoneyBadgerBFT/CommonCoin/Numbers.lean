import HoneyBadgerBFT.CommonCoin.Agreement

/-!
# Common coin: rounds of any number

Another party may send any number for the round of its share, and any object for the share.  The
entry `received[r]` goes by the value of the number, so `True`, `1` and `1.0` have the same one,
while the message of the share is hashed from its text, `str((sid, r))`, which differs.

A share that passes `verify_share` for the text of its own number is then a share for another message
in the dictionary of the round, and the assertion on the combined signature ends the loop.  Shares
whose number is no round at all are harmless: they come from Byzantine parties only, and `f` of them
complete nothing.

* `recv_ofInt`        with rounds that are `int`s, the loop is the one of `Party`;
* `no_message_stops`  what a message of a Byzantine party must not be, for the loop to go on;
* `negative_stops`    a negative round ends it.
-/

namespace Coin
open Async Trans TSIG

/-- what a number is compared by -/
inductive Value where
  | real (x : ℚ)
  | inf (negative : Bool)
  | nan
  /-- a complex number: `>=` raises -/
  | complex
deriving DecidableEq

/-- `r >= 0` -/
def Value.nonneg : Value → Option Bool
  | real x => some (decide (0 ≤ x))
  | inf negative => some !negative
  | nan => some false
  | complex => none

/-- the round that the number is equal to -/
def Value.round : Value → Option ℕ
  | real x => if x = x.num.toNat then some x.num.toNat else none
  | _ => none

/-- a number: its value, and what `repr` gives -/
structure Number where
  value : Value
  repr : List ℕ
deriving DecidableEq

/-- an `int`; 45 is the minus sign -/
def Number.ofInt (r : ℤ) : Number where
  value := .real r
  repr := (if r < 0 then [45] else []) ++ (Nat.toDigits 10 r.natAbs).map Char.toNat

/-- the part `(r, sig)` of a COIN message; `none` is an object that `pair` does not take -/
structure Message (G : Type) where
  r : Number
  sig : Option G
deriving DecidableEq

/-- the receive loop runs, or has died of an assertion, of `put_nowait` on a full queue, or of another
exception -/
inductive Loop where
  | running | assertionError | full | error
deriving DecidableEq

/-- `received` and `outputQueue` with the values of numbers as keys, and the bits put so far -/
structure Receiver (N : ℕ) (G : Type) where
  received : Value → List (Fin N × G)
  outputQueue : Value → List Bool
  recvLoop : Loop
  puts : Value → List Bool

inductive Event (N : ℕ) (G : Type) where
  | receive (i : Fin N) (m : Message G)
  | take (r : ℕ)

section
variable {p : ℕ} [Fact p.Prime] {G₁ G₂ T : Type} [CommGroup G₁] [CommGroup G₂] [CommGroup T]
  {N : ℕ}

namespace Receiver

/-- `shared_coin`, with its two assertions -/
def init (f : ℕ) (PK : PublicKey G₂) : Receiver N G₁ where
  received := fun _ => []
  outputQueue := fun _ => []
  recvLoop := if PK.k = f + 1 ∧ PK.l = N then .running else .assertionError
  puts := fun _ => []

/-- `outputQueue[r].put_nowait(bit)` -/
def putNowait (r : Value) (bit : Bool) (x : Receiver N G₁) : Receiver N G₁ :=
  if x.outputQueue r = [] then
    { x with
      outputQueue := Function.update x.outputQueue r [bit]
      puts := Function.update x.puts r (bit :: x.puts r) }
  else { x with recvLoop := .full }

/-- `received[r][i] = sig` -/
def add (i : Fin N) (r : Value) (sig : G₁) (x : Receiver N G₁) : Receiver N G₁ :=
  { x with received := Function.update x.received r (x.received r ++ [(i, sig)]) }

/-- the `get()` of a call of `getCoin(r)` -/
def take (r : ℕ) (x : Receiver N G₁) : Option (Receiver N G₁) :=
  match x.outputQueue (.real r) with
  | _ :: rest => some { x with outputQueue := Function.update x.outputQueue (.real r) rest }
  | [] => none

variable [DecidableEq T] (E : Charm p G₁ G₂ T)

/-- the threshold is reached: combine the shares of the entry, and put the bit -/
def output (f : ℕ) (PK : PublicKey G₂) (r : Value) (h : G₁) (x : Receiver N G₁) :
    Receiver N G₁ :=
  let sigs := ((x.received r).take (f + 1)).map fun y => (y.1.val, y.2)
  match combineShares p PK sigs with
  | none => { x with recvLoop := .assertionError }
  | some sig =>
    if verifySignature E PK sig h = true then x.putNowait r (Party.bitOf E sig)
    else { x with recvLoop := .assertionError }

/-- what `hash_message(str((sid, r)))` gives; `str` makes the text of the pair out of `repr(r)` -/
def textHash (str : List ℕ → List ℕ → List ℕ) (sid : List ℕ) (r : Number) : G₁ :=
  hashMessage E (str sid r.repr)

variable (str : List ℕ → List ℕ → List ℕ) (sid : List ℕ)

/-- one turn of `_recv` -/
def recv (f : ℕ) (PK : PublicKey G₂) (i : Fin N) (m : Message G₁) (x : Receiver N G₁) :
    Receiver N G₁ :=
  match m.r.value.nonneg with
  | none => { x with recvLoop := .error }
  | some false => { x with recvLoop := .assertionError }
  | some true =>
    if ∃ y ∈ x.received m.r.value, y.1 = i then x
    else
      let h := textHash E str sid m.r
      match m.sig with
      | none => { x with recvLoop := .error }
      | some sig =>
        if verifyShare E PK sig i h = false then x
        else
          let x := x.add i m.r.value sig
          if (x.received m.r.value).length = f + 1 then x.output E f PK m.r.value h else x

/-- a message arrives while the loop runs, or a call of `getCoin(r)` takes its bit -/
def next (f : ℕ) (PK : PublicKey G₂) (nd : Node N (Receiver N G₁) (Message G₁)) :
    Event N G₁ → Option (Node N (Receiver N G₁) (Message G₁))
  | .receive i m =>
    if nd.st.recvLoop = .running then some ⟨nd.st.recv E str sid f PK i m, (i, m) :: nd.rcvd⟩
    else none
  | .take r => (nd.st.take r).map fun x => ⟨x, nd.rcvd⟩

end Receiver

/-! ## what the parties send -/

section
variable (E : Charm p G₁ G₂ T) (str : List ℕ → List ℕ → List ℕ) (sid : List ℕ)

/-- what a call of `getCoin(r)` broadcasts -/
def coinMessage (SK : PrivateKey p G₂) (r : ℕ) : Message G₁ :=
  ⟨Number.ofInt r, some (sign SK (Receiver.textHash E str sid (Number.ofInt r)))⟩

/-- an honest party sends what its calls of `getCoin` broadcast, a Byzantine one anything -/
def Sent (SKs : List (PrivateKey p G₂)) (byz : Finset (Fin N)) : Event N G₁ → Prop
  | .receive i m => i ∈ byz ∨ ∃ SK, SKs[i.val]? = some SK ∧ ∃ r, m = coinMessage E str sid SK r
  | .take _ => True

/-- the message does not raise, and it is no share for another message than that of the round it is
counted for, while this round is not complete -/
def Harmless [DecidableEq T] (f : ℕ) (PK : PublicKey G₂) (x : Receiver N G₁) (i : Fin N)
    (m : Message G₁) : Prop :=
  m.r.value.nonneg = some true ∧
    ((∃ y ∈ x.received m.r.value, y.1 = i) ∨
      ∃ sig ∈ m.sig, verifyShare E PK sig i (Receiver.textHash E str sid m.r) = true →
        ∀ r ∈ m.r.value.round, f < (x.received m.r.value).length ∨
          Receiver.textHash E str sid m.r = Receiver.textHash E str sid (Number.ofInt r))

instance [DecidableEq G₁] [DecidableEq T] (f : ℕ) (PK : PublicKey G₂) (x : Receiver N G₁) (i : Fin N)
    (m : Message G₁) : Decidable (Harmless E str sid f PK x i m) :=
  inferInstanceAs (Decidable (_ ∧ _))

/-- the messages of Byzantine parties are harmless -/
def NoHarm [DecidableEq T] (f : ℕ) (PK : PublicKey G₂) (byz : Finset (Fin N))
    (nd : Node N (Receiver N G₁) (Message G₁)) : Event N G₁ → Prop
  | .receive i m => i ∈ byz → Harmless E str sid f PK nd.st i m
  | .take _ => True

end

/-! ## values -/

theorem round_natCast (r : ℕ) : (Value.real r).round = some r := by
  simp [Value.round]

theorem eq_of_round {v : Value} {r : ℕ} (h : v.round = some r) : v = .real r := by
  unfold Value.round at h
  split at h
  · split at h
    · next hx =>
      rw [Option.some.inj h] at hx
      rw [hx]
    · cases h
  · cases h

theorem nonneg_natCast (r : ℕ) : (Value.real r).nonneg = some true := by
  simp [Value.nonneg]

theorem ofInt_value (r : ℕ) : (Number.ofInt r).value = .real r := by
  simp [Number.ofInt]

/-! ## a message arrives -/

section
variable {G : Type} {x : Receiver N G} {i : Fin N} {v : Value} {sig : G}

theorem Receiver.add_received_self : (x.add i v sig).received v = x.received v ++ [(i, sig)] :=
  Function.update_self ..

theorem Receiver.add_received_of_ne {w : Value} (h : w ≠ v) :
    (x.add i v sig).received w = x.received w :=
  Function.update_of_ne h ..

theorem Receiver.add_length :
    ((x.add i v sig).received v).length = (x.received v).length + 1 := by
  rw [add_received_self, List.length_append, List.length_singleton]

theorem Receiver.take_received {r : ℕ} {y : Receiver N G} (hy : x.take r = some y) :
    y.received = x.received := by
  unfold Receiver.take at hy
  split at hy
  · obtain rfl := Option.some.inj hy
    rfl
  · cases hy

/-- nobody is taken out of an entry -/
theorem Receiver.mem_add {j : Fin N} {w : Value} (h : j ∈ (x.received w).map Prod.fst) :
    j ∈ ((x.add i v sig).received w).map Prod.fst := by
  by_cases hw : w = v
  · subst hw
    rw [add_received_self, List.map_append]
    exact List.mem_append_left _ h
  · rwa [add_received_of_ne hw]

end

section
variable {E : Charm p G₁ G₂ T} {str : List ℕ → List ℕ → List ℕ} {sid : List ℕ} {f : ℕ}
  {a : List (ZMod p)} {x : Receiver N G₁} {i : Fin N} {m : Message G₁} {byz : Finset (Fin N)}
  {rcvd : List (Fin N × Message G₁)} {v : Value} {sig : G₁}

/-- the shares that count for a round are those of its own message, and what is counted for no round
comes from Byzantine parties -/
structure Counted (E : Charm p G₁ G₂ T) (str : List ℕ → List ℕ → List ℕ) (sid : List ℕ)
    (a : List (ZMod p)) (f : ℕ) (byz : Finset (Fin N)) (received : Value → List (Fin N × G₁)) :
    Prop where
  nodup : ∀ v, ((received v).map Prod.fst).Nodup
  power : ∀ r : ℕ, ∀ y ∈ (received (.real r)).take (f + 1),
    y.2 = Receiver.textHash E str sid (Number.ofInt r) ^ (TPKE.secretKey a y.1).val
  odd : ∀ v, v.round = none → ∀ y ∈ received v, y.1 ∈ byz

/-- the bit of the round -/
def roundBit (E : Charm p G₁ G₂ T) (str : List ℕ → List ℕ → List ℕ) (sid : List ℕ)
    (a : List (ZMod p)) (r : ℕ) : Bool :=
  Party.bitOf E (Receiver.textHash E str sid (Number.ofInt r) ^ (a.headD 0).val)

/-- the invariant of the loop -/
structure Kept (E : Charm p G₁ G₂ T) (str : List ℕ → List ℕ → List ℕ) (sid : List ℕ)
    (a : List (ZMod p)) (f : ℕ) (byz : Finset (Fin N)) (x : Receiver N G₁) : Prop where
  running : x.recvLoop = .running
  counted : Counted E str sid a f byz x.received
  early : ∀ v, (x.received v).length ≤ f → x.outputQueue v = [] ∧ x.puts v = []
  late : ∀ r : ℕ, f < (x.received (.real r)).length → x.puts (.real r) = [roundBit E str sid a r]

theorem Kept.init (PK : PublicKey G₂) (hk : PK.k = f + 1) (hl : PK.l = N) :
    Kept E str sid a f byz (Receiver.init f PK) where
  running := if_pos ⟨hk, hl⟩
  counted :=
    { nodup := fun _ => List.nodup_nil
      power := fun _ y hy => absurd hy (by simp [Receiver.init])
      odd := fun _ _ y hy => absurd hy List.not_mem_nil }
  early _ _ := ⟨rfl, rfl⟩
  late _ h := absurd h (Nat.not_lt_zero _)

theorem Kept.take (h : Kept E str sid a f byz x) {r : ℕ} {y : Receiver N G₁}
    (hy : x.take r = some y) : Kept E str sid a f byz y := by
  unfold Receiver.take at hy
  split at hy
  · next bit rest hq =>
    obtain rfl := Option.some.inj hy
    refine ⟨h.running, h.counted, fun v hv => ?_, h.late⟩
    obtain ⟨hempty, hputs⟩ := h.early v hv
    have hne : v ≠ .real r := by
      rintro rfl
      rw [hq] at hempty
      cases hempty
    exact ⟨(Function.update_of_ne hne ..).trans hempty, hputs⟩
  · cases hy

namespace Receiver

/-- the state after the bit of the entry has been put on its queue -/
def queued (v : Value) (bit : Bool) (x : Receiver N G₁) : Receiver N G₁ :=
  { x with
    outputQueue := Function.update x.outputQueue v [bit]
    puts := Function.update x.puts v (bit :: x.puts v) }

variable [DecidableEq T]

/-- a harmless message is redundant, or it fails, or it is taken in -/
theorem recv_cases {PK : PublicKey G₂} (hm : Harmless E str sid f PK x i m) :
    ((∃ y ∈ x.received m.r.value, y.1 = i) ∧ x.recv E str sid f PK i m = x) ∨
    (∃ sig, m.sig = some sig ∧ verifyShare E PK sig i (textHash E str sid m.r) = false ∧
      x.recv E str sid f PK i m = x) ∨
    (i ∉ (x.received m.r.value).map Prod.fst ∧ ∃ sig, m.sig = some sig ∧
      verifyShare E PK sig i (textHash E str sid m.r) = true ∧
      x.recv E str sid f PK i m =
        if (x.received m.r.value).length = f then
          (x.add i m.r.value sig).output E f PK m.r.value (textHash E str sid m.r)
        else x.add i m.r.value sig) := by
  obtain ⟨hnn, hfits⟩ := hm
  unfold recv
  simp only [hnn]
  by_cases hold : ∃ y ∈ x.received m.r.value, y.1 = i
  · exact .inl ⟨hold, if_pos hold⟩
  · obtain ⟨sig, hsig, -⟩ := hfits.resolve_left hold
    replace hsig : m.sig = some sig := hsig
    simp only [hsig]
    rw [if_neg hold]
    by_cases hv : verifyShare E PK sig i (textHash E str sid m.r) = false
    · exact .inr (.inl ⟨sig, rfl, hv, if_pos hv⟩)
    · rw [if_neg hv]
      refine .inr (.inr ⟨fun h => hold (List.mem_map.mp h), sig, rfl, eq_true_of_ne_false hv, ?_⟩)
      rw [add_length]
      by_cases hf : (x.received m.r.value).length = f
      · rw [if_pos hf, if_pos (congrArg (· + 1) hf)]
      · rw [if_neg hf, if_neg fun h => hf (Nat.succ.inj h)]

/-- **the output of a complete round** -/
theorem output_eq (hN : N < p) (ha : a.length = f + 1) {h : G₁}
    (hnodup : ((x.received v).map Prod.fst).Nodup) (hlen : (x.received v).length = f + 1)
    (hpower : ∀ y ∈ x.received v, y.2 = h ^ (TPKE.secretKey a y.1).val)
    (hempty : x.outputQueue v = []) :
    x.output E f (publicKey E N (f + 1) a) v h =
      x.queued v (Party.bitOf E (h ^ (a.headD 0).val)) := by
  have hver : verifySignature E (publicKey E N (f + 1) a) (h ^ (a.headD 0).val) h = true :=
    verifySignature_iff.mpr rfl
  unfold output
  dsimp only
  rw [List.take_of_length_le (le_of_eq hlen), combine_eq (E := E) hN ha hnodup hlen hpower]
  dsimp only
  rw [if_pos hver]
  exact if_pos hempty

end Receiver

theorem Counted.add (h : Counted E str sid a f byz x.received)
    (hnew : i ∉ (x.received v).map Prod.fst) (hodd : v.round = none → i ∈ byz)
    (hsig : ∀ r ∈ v.round, f < (x.received v).length ∨
      sig = Receiver.textHash E str sid (Number.ofInt r) ^ (TPKE.secretKey a i).val) :
    Counted E str sid a f byz (x.add i v sig).received := by
  refine ⟨fun w => ?_, fun r y hy => ?_, fun w hw y hy => ?_⟩
  · by_cases hwv : w = v
    · subst hwv
      rw [Receiver.add_received_self]
      exact nodup_concat (h.nodup w) hnew
    · rw [Receiver.add_received_of_ne hwv]
      exact h.nodup w
  · by_cases hv : .real r = v
    · subst hv
      rw [Receiver.add_received_self] at hy
      rcases hsig r (round_natCast r) with hlate | hsig
      · -- the share comes after those that are combined
        rw [List.take_append_of_le_length hlate] at hy
        exact h.power r y hy
      · rw [List.take_append] at hy
        rcases List.mem_append.mp hy with hold | hone
        · exact h.power r y hold
        · rw [List.mem_singleton.mp (List.mem_of_mem_take hone)]
          exact hsig
    · rw [Receiver.add_received_of_ne hv] at hy
      exact h.power r y hy
  · by_cases hwv : w = v
    · subst hwv
      rw [Receiver.add_received_self] at hy
      rcases List.mem_append.mp hy with hold | hone
      · exact h.odd w hw y hold
      · rw [List.mem_singleton.mp hone]
        exact hodd hw
    · rw [Receiver.add_received_of_ne hwv] at hy
      exact h.odd w hw y hy

/-- fewer than `f+1` shares are counted for what is no round -/
theorem Counted.length_le {received : Value → List (Fin N × G₁)}
    (h : Counted E str sid a f byz received) (hbyz : byz.card ≤ f) (hv : v.round = none) :
    (received v).length ≤ f := by
  rw [← List.length_map (f := Prod.fst), ← List.toFinset_card_of_nodup (h.nodup v)]
  refine (Finset.card_le_card fun j hj => ?_).trans hbyz
  obtain ⟨y, hy, rfl⟩ := List.mem_map.mp (List.mem_toFinset.mp hj)
  exact h.odd v hv y hy

/-- a share is taken in, and the entry was complete before or is not complete now -/
theorem Kept.add (h : Kept E str sid a f byz x)
    (hadd : Counted E str sid a f byz (x.add i v sig).received)
    (hf : (x.received v).length ≠ f) : Kept E str sid a f byz (x.add i v sig) := by
  have hlen : ((x.add i v sig).received v).length = (x.received v).length + 1 :=
    Receiver.add_length
  refine ⟨h.running, hadd, fun w hw => h.early w ?_, fun r hr => h.late r ?_⟩
  · by_cases hwv : w = v
    · subst hwv
      omega
    · rwa [Receiver.add_received_of_ne hwv] at hw
  · by_cases hrv : .real r = v
    · subst hrv
      omega
    · rwa [Receiver.add_received_of_ne hrv] at hr

/-- the share completes a round, and the bit is put -/
theorem Kept.queued {r : ℕ} (h : Kept E str sid a f byz x)
    (hadd : Counted E str sid a f byz (x.add i (.real r) sig).received)
    (hf : (x.received (.real r)).length = f) :
    Kept E str sid a f byz
      ((x.add i (.real r) sig).queued (.real r) (roundBit E str sid a r)) := by
  have hlen : ((x.add i (.real r) sig).received (.real r)).length =
      (x.received (.real r)).length + 1 := Receiver.add_length
  refine ⟨h.running, hadd, fun w hw => ?_, fun r' hr' => ?_⟩
  · have hle : ((x.add i (.real r) sig).received w).length ≤ f := hw
    have hne : w ≠ .real r := by
      rintro rfl
      omega
    rw [Receiver.add_received_of_ne hne] at hle
    obtain ⟨hempty, hputs⟩ := h.early w hle
    exact ⟨(Function.update_of_ne hne ..).trans hempty, (Function.update_of_ne hne ..).trans hputs⟩
  · by_cases hne : Value.real r' = .real r
    · obtain rfl : r' = r := Option.some.inj
        ((round_natCast r').symm.trans ((congrArg Value.round hne).trans (round_natCast r)))
      obtain ⟨-, hputs⟩ := h.early (.real r') hf.le
      exact (Function.update_self ..).trans (congrArg (roundBit E str sid a r' :: ·) hputs)
    · have hlt : f < ((x.add i (.real r) sig).received (.real r')).length := hr'
      rw [Receiver.add_received_of_ne hne] at hlt
      exact (Function.update_of_ne hne ..).trans (h.late r' hlt)

variable [DecidableEq T]

/-- **a harmless message keeps the invariant** -/
theorem Kept.recv (hN : N < p) (ha : a.length = f + 1) (hbyz : byz.card ≤ f)
    (h : Kept E str sid a f byz x) (hm : Harmless E str sid f (publicKey E N (f + 1) a) x i m)
    (hodd : m.r.value.round = none → i ∈ byz) :
    Kept E str sid a f byz (x.recv E str sid f (publicKey E N (f + 1) a) i m) := by
  rcases Receiver.recv_cases hm with ⟨-, heq⟩ | ⟨-, -, -, heq⟩ | ⟨hnew, sig, hsig, hv, heq⟩ <;> rw [heq]
  · exact h
  · exact h
  · have hhash : ∀ r ∈ m.r.value.round, f < (x.received m.r.value).length ∨
        Receiver.textHash E str sid m.r = Receiver.textHash E str sid (Number.ofInt r) := by
      rcases hm.2 with hold | ⟨sig', hs, hfits⟩
      · exact absurd (List.mem_map.mpr hold) hnew
      · obtain rfl := Option.some.inj (hs.symm.trans hsig)
        exact hfits hv
    have hadd : Counted E str sid a f byz (x.add i m.r.value sig).received := by
      refine h.counted.add hnew hodd fun r hr => (hhash r hr).imp_right fun e => ?_
      rw [← e]
      exact (verifyShare_iff.mp hv).2
    have hlen : ((x.add i m.r.value sig).received m.r.value).length =
        (x.received m.r.value).length + 1 := Receiver.add_length
    by_cases hf : (x.received m.r.value).length = f
    · rw [if_pos hf]
      cases hround : m.r.value.round with
      | none => exact absurd (hadd.length_le hbyz hround) (by omega)
      | some r =>
        -- all shares of the entry are for the message of the round, which is the one hashed now
        have hnow := (hhash r hround).resolve_left (by omega)
        rw [eq_of_round hround] at hf hadd hlen ⊢
        have hpower := hadd.power r
        rw [List.take_of_length_le (by omega)] at hpower
        rw [hnow, Receiver.output_eq hN ha (hadd.nodup _) (hlen.trans (congrArg (· + 1) hf)) hpower
          (h.early _ hf.le).1]
        exact h.queued hadd hf
    · rw [if_neg hf]
      exact h.add hadd hf

theorem Receiver.output_received {PK : PublicKey G₂} {h : G₁} :
    (x.output E f PK v h).received = x.received := by
  unfold output putNowait
  dsimp only
  repeat' split
  all_goals rfl

/-- after a harmless message those who were there are there, and the sender of a valid share is -/
theorem Receiver.mem_recv {PK : PublicKey G₂} (hm : Harmless E str sid f PK x i m) :
    (∀ w, ∀ j ∈ (x.received w).map Prod.fst,
      j ∈ ((x.recv E str sid f PK i m).received w).map Prod.fst) ∧
    ((∀ sig ∈ m.sig, verifyShare E PK sig i (textHash E str sid m.r) = true) →
      i ∈ ((x.recv E str sid f PK i m).received m.r.value).map Prod.fst) := by
  rcases recv_cases hm with ⟨hold, heq⟩ | ⟨sig, hs, hv, heq⟩ | ⟨-, sig, -, -, heq⟩
  · rw [heq]
    exact ⟨fun _ _ hj => hj, fun _ => List.mem_map.mpr hold⟩
  · rw [heq]
    refine ⟨fun _ _ hj => hj, fun hvalid => ?_⟩
    rw [hvalid sig hs] at hv
    cases hv
  · have hadd : (x.recv E str sid f PK i m).received = (x.add i m.r.value sig).received := by
      rw [heq]
      split
      · exact output_received
      · rfl
    rw [hadd]
    refine ⟨fun _ _ hj => mem_add hj, fun _ => ?_⟩
    rw [add_received_self, List.map_append]
    exact List.mem_append_right _ (List.mem_singleton_self i)

end

/-! ## with ints -/

/-- the receive loop of `Party` stands where this one does -/
def RecvLoop.loop : RecvLoop → Loop
  | .running => .running
  | .assertionError => .assertionError
  | .full => .full

/-- the entries of the ints are those of a `Party` -/
structure SameCoin {G : Type} (x : Receiver N G) (y : Party N G) : Prop where
  received : ∀ r : ℤ, x.received (.real r) = y.received r
  outputQueue : ∀ r : ℤ, x.outputQueue (.real r) = y.outputQueue r
  recvLoop : x.recvLoop = y.recvLoop.loop
  puts : ∀ r : ℤ, x.puts (.real r) = y.puts r

theorem SameCoin.stop {G : Type} {x : Receiver N G} {y : Party N G} {l : RecvLoop}
    (h : SameCoin x y) : SameCoin { x with recvLoop := l.loop } { y with recvLoop := l } :=
  ⟨h.received, h.outputQueue, rfl, h.puts⟩

section
variable {E : Charm p G₁ G₂ T} {str : List ℕ → List ℕ → List ℕ} {sid : List ℕ} {f : ℕ}
  {PK : PublicKey G₂} {x : Receiver N G₁} {y : Party N G₁} {r : ℤ}

theorem real_inj {r s : ℤ} (h : (Value.real r) = .real s) : r = s := by
  simpa using h

/-- an update at an int is one of the table of the ints -/
theorem update_real {α : Type} {g : Value → α} {g' : ℤ → α} (h : ∀ r : ℤ, g (.real r) = g' r)
    (r : ℤ) (c : α) (s : ℤ) :
    Function.update g (.real r) c (.real s) = Function.update g' r c s := by
  by_cases hs : s = r
  · subst hs
    rw [Function.update_self, Function.update_self]
  · rw [Function.update_of_ne fun e => hs (real_inj e), Function.update_of_ne hs]
    exact h s

omit [CommGroup G₁] in
theorem SameCoin.putNowait (h : SameCoin x y) (bit : Bool) :
    SameCoin (x.putNowait (.real r) bit) (y.putNowait r bit) := by
  unfold Receiver.putNowait Party.putNowait
  rw [h.outputQueue r]
  by_cases hq : y.outputQueue r = []
  · rw [if_pos hq, if_pos hq]
    refine ⟨h.received, update_real h.outputQueue r [bit], h.recvLoop, fun s => ?_⟩
    refine (update_real h.puts r (bit :: x.puts (.real r)) s).trans ?_
    rw [h.puts r]
    show _ = (Party.emit (.put r bit) _).puts s
    unfold Party.puts Party.emit
    rw [List.filterMap_cons, outBit]
    by_cases hs : r = s
    · subst hs
      rw [if_pos rfl, Function.update_self]
    · rw [if_neg hs, Function.update_of_ne (Ne.symm hs)]
  · rw [if_neg hq, if_neg hq]
    exact h.stop (l := .full)

variable [DecidableEq T]

theorem SameCoin.output (h : SameCoin x y) :
    SameCoin (x.output E f PK (.real r) (Receiver.textHash E str sid (Number.ofInt r)))
      (y.output E (fun sid r => str sid (Number.ofInt r).repr) sid f PK r) := by
  unfold Receiver.output Party.output
  rw [h.received r]
  dsimp only
  cases combineShares p PK (((y.received r).take (f + 1)).map fun y => (y.1.val, y.2)) with
  | none => exact h.stop (l := .assertionError)
  | some sig =>
    dsimp only
    show SameCoin _ (if verifySignature E PK sig
      (Receiver.textHash E str sid (Number.ofInt r)) = true then _ else _)
    by_cases hv : verifySignature E PK sig (Receiver.textHash E str sid (Number.ofInt r)) = true
    · rw [if_pos hv, if_pos hv]
      exact h.putNowait _
    · rw [if_neg hv, if_neg hv]
      exact h.stop (l := .assertionError)

/-- **with ints the loop is the one of `Party`** -/
theorem recv_ofInt (h : SameCoin x y) (i : Fin N) (sig : G₁) :
    SameCoin (x.recv E str sid f PK i ⟨Number.ofInt r, some sig⟩)
      (y.recv E (fun sid r => str sid (Number.ofInt r).repr) sid f PK i ⟨r, sig⟩) := by
  have hnn : (Number.ofInt r).value.nonneg = some (decide (0 ≤ r)) := by
    simp [Number.ofInt, Value.nonneg]
  unfold Receiver.recv Party.recv
  simp only [hnn]
  by_cases hr : r < 0
  · rw [if_pos hr, decide_eq_false (not_le.mpr hr)]
    exact h.stop (l := .assertionError)
  · rw [if_neg hr, decide_eq_true (not_lt.mp hr)]
    dsimp only
    rw [show (Number.ofInt r).value = .real r from rfl, h.received r]
    by_cases hold : ∃ z ∈ y.received r, z.1 = i
    · rw [if_pos hold, if_pos hold]
      exact h
    · rw [if_neg hold, if_neg hold]
      show SameCoin _ (if verifyShare E PK sig i
        (Receiver.textHash E str sid (Number.ofInt r)) = false then _ else _)
      by_cases hv : verifyShare E PK sig i (Receiver.textHash E str sid (Number.ofInt r)) = false
      · rw [if_pos hv, if_pos hv]
        exact h
      · rw [if_neg hv, if_neg hv]
        have hadd : SameCoin (x.add i (.real r) sig) (y.add i ⟨r, sig⟩) := by
          refine ⟨fun s => ?_, h.outputQueue, h.recvLoop, h.puts⟩
          refine (update_real h.received r _ s).trans ?_
          rw [h.received r]
          rfl
        show SameCoin _ (if ((y.add i ⟨r, sig⟩).received r).length = f + 1 then _ else _)
        rw [hadd.received r]
        by_cases hf : ((y.add i ⟨r, sig⟩).received r).length = f + 1
        · rw [if_pos hf, if_pos hf]
          exact hadd.output
        · rw [if_neg hf, if_neg hf]
          exact hadd

end

/-! ## runs -/

section
variable {E : Charm p G₁ G₂ T} {str : List ℕ → List ℕ → List ℕ} {sid : List ℕ} {f : ℕ}
  {byz : Finset (Fin N)} {secret : ZMod p} {rest : List (ZMod p)} {PK : PublicKey G₂}
  {SKs : List (PrivateKey p G₂)} [DecidableEq T]

/-- the states of a loop that a run reaches in which the messages of Byzantine parties meet `ok` -/
def LoopReached (E : Charm p G₁ G₂ T) (str : List ℕ → List ℕ → List ℕ) (sid : List ℕ) (f : ℕ)
    (PK : PublicKey G₂) (SKs : List (PrivateKey p G₂)) (byz : Finset (Fin N))
    (ok : Node N (Receiver N G₁) (Message G₁) → Event N G₁ → Prop) :
    Node N (Receiver N G₁) (Message G₁) → Prop :=
  Reach (Receiver.next E str sid f PK) (fun nd e => Sent E str sid SKs byz e ∧ ok nd e)
    ⟨Receiver.init f PK, []⟩

variable (E str sid f) in
/-- what an honest party sends is harmless, and a valid share -/
theorem harmless_coinMessage (a : List (ZMod p)) (x : Receiver N G₁) (i : Fin N) (r : ℕ) :
    Harmless E str sid f (publicKey E N (f + 1) a) x i
        (coinMessage E str sid (privateKey E N (f + 1) a i) r) ∧
      ∀ sig ∈ (coinMessage E str sid (privateKey E N (f + 1) a i) r).sig,
        verifyShare E (publicKey E N (f + 1) a) sig i
          (Receiver.textHash E str sid (Number.ofInt r)) = true := by
  refine ⟨⟨?_, .inr ⟨_, rfl, fun _ r' hr' => .inr ?_⟩⟩, fun sig hsig => ?_⟩
  · show (Number.ofInt r).value.nonneg = some true
    rw [ofInt_value, nonneg_natCast]
  · have hround : (Number.ofInt r).value.round = some r' := hr'
    rw [ofInt_value, round_natCast] at hround
    obtain rfl := Option.some.inj hround
    rfl
  · obtain rfl := Option.some.inj hsig
    exact verifyShare_iff.mpr ⟨i.isLt, rfl⟩

/-- whoever it comes from, a message of such a run is harmless; only a Byzantine party sends a number
that is no round, and an honest one sends valid shares -/
theorem harmless_of_sent {a : List (ZMod p)}
    (hkeys : ∀ i, i < N → SKs[i]? = some (privateKey E N (f + 1) a i))
    {nd : Node N (Receiver N G₁) (Message G₁)} {i : Fin N} {m : Message G₁}
    (hsent : Sent E str sid SKs byz (.receive i m))
    (hharm : NoHarm E str sid f (publicKey E N (f + 1) a) byz nd (.receive i m)) :
    Harmless E str sid f (publicKey E N (f + 1) a) nd.st i m ∧
      (m.r.value.round = none → i ∈ byz) ∧
      (i ∉ byz → ∀ sig ∈ m.sig, verifyShare E (publicKey E N (f + 1) a) sig i
        (Receiver.textHash E str sid m.r) = true) := by
  by_cases hi : i ∈ byz
  · exact ⟨hharm hi, fun _ => hi, fun hno => absurd hi hno⟩
  · obtain ⟨SK, hSK, r, rfl⟩ := hsent.resolve_left hi
    obtain rfl := Option.some.inj (hSK.symm.trans (hkeys i i.isLt))
    obtain ⟨hsafe, hvalid⟩ := harmless_coinMessage E str sid f a nd.st i r
    refine ⟨hsafe, fun hround => ?_, fun _ => hvalid⟩
    have hround : (Number.ofInt r).value.round = none := hround
    rw [ofInt_value, round_natCast] at hround
    cases hround

/-- **run lemma**: the invariant, and the sender of every honest message is counted for its round -/
theorem reached_kept (hN : N < p) (hbyz : byz.card ≤ f)
    (hdeal : dealer E N (f + 1) secret rest = some (PK, SKs))
    {nd : Node N (Receiver N G₁) (Message G₁)}
    (h : LoopReached E str sid f PK SKs byz (NoHarm E str sid f PK byz) nd) :
    Kept E str sid (secret :: rest) f byz nd.st ∧
      ∀ y ∈ nd.rcvd, y.1 ∉ byz → y.1 ∈ (nd.st.received y.2.r.value).map Prod.fst := by
  obtain ⟨ha, rfl, hkeys⟩ := dealer_spec E hdeal
  refine h.invariant (fun nd : Node N (Receiver N G₁) (Message G₁) =>
    Kept E str sid (secret :: rest) f byz nd.st ∧
      ∀ y ∈ nd.rcvd, y.1 ∉ byz → y.1 ∈ (nd.st.received y.2.r.value).map Prod.fst)
    (fun nd e t hnd hok hn => ?_) ⟨Kept.init _ rfl rfl, fun y hy => absurd hy List.not_mem_nil⟩
  obtain ⟨hkept, hin⟩ := hnd
  obtain ⟨hsent, hharm⟩ := hok
  cases e with
  | receive i m =>
    obtain rfl := Option.some.inj ((if_pos hkept.running).symm.trans hn)
    obtain ⟨hm, hodd, hvalid⟩ := harmless_of_sent hkeys hsent hharm
    obtain ⟨hold, hnew⟩ := Receiver.mem_recv hm
    refine ⟨hkept.recv hN ha hbyz hm hodd, fun y hy hyb => ?_⟩
    rcases List.mem_cons.mp hy with rfl | hy
    · exact hnew (hvalid hyb)
    · exact hold _ _ (hin y hy hyb)
  | take r =>
    obtain ⟨x, hx, rfl⟩ := Option.map_eq_some_iff.mp hn
    refine ⟨hkept.take hx, fun y hy hyb => ?_⟩
    rw [Receiver.take_received hx]
    exact hin y hy hyb

end

/-- **no harmless message stops the coin**: in every run in which honest parties send what their calls
of `getCoin` broadcast, and the messages of at most `f` Byzantine parties are harmless, the loop goes
on, and a round of which the shares of `f+1` honest parties have arrived has got its bit -/
theorem no_message_stops (E : Charm p G₁ G₂ T) [DecidableEq T] (str : List ℕ → List ℕ → List ℕ)
    (sid : List ℕ) (N f : ℕ) (hN : N < p) (byz : Finset (Fin N)) (hbyz : byz.card ≤ f)
    (secret : ZMod p) (rest : List (ZMod p)) (PK : PublicKey G₂) (SKs : List (PrivateKey p G₂))
    (hdeal : dealer E N (f + 1) secret rest = some (PK, SKs))
    (nd : Node N (Receiver N G₁) (Message G₁))
    (h : LoopReached E str sid f PK SKs byz (NoHarm E str sid f PK byz) nd) :
    nd.st.recvLoop = .running ∧
    ∀ (r : ℕ) (A : Finset (Fin N)), f + 1 ≤ A.card →
      (∀ i ∈ A, i ∉ byz ∧ ∃ SK, (i, coinMessage E str sid SK r) ∈ nd.rcvd) →
      ∃ bit, nd.st.puts (.real r) = [bit] := by
  obtain ⟨hkept, hin⟩ := reached_kept hN hbyz hdeal h
  refine ⟨hkept.running, fun r A hA hall => ⟨_, hkept.late r ?_⟩⟩
  have hsub : A ⊆ ((nd.st.received (.real r)).map Prod.fst).toFinset := by
    intro i hi
    obtain ⟨hib, SK, hrcvd⟩ := hall i hi
    have hmem := hin _ hrcvd hib
    rw [show (coinMessage E str sid SK r).r.value = .real r from ofInt_value r] at hmem
    exact List.mem_toFinset.mpr hmem
  have hcard := Finset.card_le_card hsub
  rw [List.toFinset_card_of_nodup (hkept.counted.nodup _), List.length_map] at hcard
  omega

end

/-! ## four parties, of which the party 2 is Byzantine -/

namespace four

/-- the text of a pair is not more than that of its parts here -/
def pairText (sid r : List ℕ) : List ℕ := sid ++ r

/-- the share of the party `i` for the message of a number -/
def shareFor (i : Fin Committee.four.N) (r : Number) : Message Z7 :=
  ⟨r, SKs[i.val]?.map fun SK => sign SK (Receiver.textHash seven pairText [83] r)⟩

/-- a share for the round 1 is what `getCoin(1)` broadcasts -/
theorem exists_key (i : Fin Committee.four.N) : ∃ SK, SKs[i.val]? = some SK ∧
    shareFor i (Number.ofInt 1) = coinMessage seven pairText [83] SK 1 := by
  have hlt : i.val < 4 := i.isLt
  have hkey : SKs[i.val]? = some (privateKey seven 4 2 [3, 1] i) := by
    rw [SKs, List.getElem?_map, List.getElem?_range hlt]
    rfl
  refine ⟨_, hkey, ?_⟩
  rw [shareFor, hkey]
  rfl

/-- `True` -/
def one : Number := ⟨.real 1, [84, 114, 117, 101]⟩

/-- `0.5` -/
def half : Number := ⟨.real (1 / 2), [48, 46, 53]⟩

/-- the party 2 sends a share for 0.5 and a wrong one for `True`, and when the round 1 is complete a
right one for `True` -/
def loopRun : List (Event Committee.four.N Z7) :=
  [.receive 2 (shareFor 2 half), .receive 0 (shareFor 0 (Number.ofInt 1)),
    .receive 2 ⟨one, some 1⟩, .receive 1 (shareFor 1 (Number.ofInt 1)),
    .receive 2 (shareFor 2 one), .take 1]

/-- the messages of `loopRun` -/
def allowed (nd : Node Committee.four.N (Receiver Committee.four.N Z7) (Message Z7)) :
    Event Committee.four.N Z7 → Bool
  | .receive i m =>
    if i = 2 then decide (Harmless seven pairText [83] 1 PK nd.st i m)
    else decide (m = shareFor i (Number.ofInt 1))
  | .take _ => true

theorem sent_of_allowed {nd : Node Committee.four.N (Receiver Committee.four.N Z7) (Message Z7)}
    {e : Event Committee.four.N Z7} (h : allowed nd e = true) : Sent seven pairText [83] SKs {2} e ∧
      NoHarm seven pairText [83] 1 PK {2} nd e := by
  cases e with
  | receive i m =>
    by_cases hi : i = 2
    · subst hi
      exact ⟨.inl (Finset.mem_singleton_self 2), fun _ => of_decide_eq_true h⟩
    · have hm : m = shareFor i (Number.ofInt 1) := of_decide_eq_true ((if_neg hi).symm.trans h)
      obtain ⟨SK, hkey, hshare⟩ := exists_key i
      exact ⟨.inr ⟨SK, hkey, 1, hm.trans hshare⟩,
        fun hb => absurd (Finset.mem_singleton.mp hb) hi⟩
  | take r => exact ⟨trivial, trivial⟩

/-- only the party 2 sends -/
def fromTwo (_ : Node Committee.four.N (Receiver Committee.four.N Z7) (Message Z7)) :
    Event Committee.four.N Z7 → Bool
  | .receive i _ => decide (i = 2)
  | .take _ => true

theorem sent_of_fromTwo {nd : Node Committee.four.N (Receiver Committee.four.N Z7) (Message Z7)}
    {e : Event Committee.four.N Z7} (h : fromTwo nd e = true) : Sent seven pairText [83] SKs {2} e := by
  cases e with
  | receive i m => exact .inl (Finset.mem_singleton.mpr (of_decide_eq_true h))
  | take r => trivial

/-- a share for `True` comes before one for the round 1 -/
def trueRun : List (Event Committee.four.N Z7) :=
  [.receive 2 (shareFor 2 one), .receive 0 (shareFor 0 (Number.ofInt 1))]

end four

theorem no_message_stops_four : ∃ nd :
    Node Committee.four.N (Receiver Committee.four.N Z7) (Message Z7),
    LoopReached seven four.pairText [83] 1 four.PK four.SKs {2}
      (NoHarm seven four.pairText [83] 1 four.PK {2}) nd ∧
    (2, ⟨four.one, some 1⟩) ∈ nd.rcvd ∧ nd.st.recvLoop = .running ∧
    ∃ bit, nd.st.puts (.real (1 : ℕ)) = [bit] := by
  have hexec : (exec (Receiver.next seven four.pairText [83] 1 four.PK) four.allowed
      ⟨Receiver.init 1 four.PK, []⟩ four.loopRun).any (fun nd =>
        decide ((2, ⟨four.one, some 1⟩) ∈ nd.rcvd) &&
        decide (∀ i ∈ ({0, 1} : Finset (Fin Committee.four.N)),
          (i, four.shareFor i (Number.ofInt 1)) ∈ nd.rcvd)) = true := by
    decide +kernel
  obtain ⟨nd, hnd, hgood⟩ := exists_reach_of_exec (fun _ _ => four.sent_of_allowed) hexec
  obtain ⟨hone, hrcvd⟩ := (Bool.and_eq_true ..).mp hgood
  obtain ⟨hrun, hbit⟩ := no_message_stops seven four.pairText [83] 4 1 (by decide) {2} (by decide)
    3 [1] four.PK four.SKs four.dealt nd hnd
  refine ⟨nd, hnd, of_decide_eq_true hone, hrun, hbit 1 {0, 1} (by decide) fun i hi => ⟨?_, ?_⟩⟩
  · revert i
    decide
  · obtain ⟨SK, -, hshare⟩ := four.exists_key i
    exact ⟨SK, hshare ▸ of_decide_eq_true hrcvd i hi⟩

/-- **a negative round ends the loop** -/
theorem negative_stops : ¬ ∀ nd :
    Node Committee.four.N (Receiver Committee.four.N Z7) (Message Z7),
    LoopReached seven four.pairText [83] 1 four.PK four.SKs {2} (fun _ _ => True) nd →
      nd.st.recvLoop = .running := by
  intro hclaim
  have hexec : (exec (Receiver.next seven four.pairText [83] 1 four.PK) four.fromTwo
      ⟨Receiver.init 1 four.PK, []⟩ [.receive 2 (four.shareFor 2 (Number.ofInt (-1)))]).any
      (fun nd => decide (nd.st.recvLoop = .assertionError)) = true := by
    decide +kernel
  have hok : ∀ nd e, four.fromTwo nd e = true →
      Sent seven four.pairText [83] four.SKs {2} e ∧ True :=
    fun _ _ h => ⟨four.sent_of_fromTwo h, trivial⟩
  obtain ⟨nd, hnd, hstop⟩ := exists_reach_of_exec hok hexec
  have hrun := hclaim nd hnd
  rw [of_decide_eq_true hstop] at hrun
  cases hrun

/-- so does a share for `True`, when the round 1 is complete with it -/
example : (exec (Receiver.next seven four.pairText [83] 1 four.PK) (fun _ _ => true)
    ⟨Receiver.init 1 four.PK, []⟩ four.trueRun).any
    (fun nd => decide (nd.st.recvLoop = .assertionError)) = true := by
  decide +kernel

end Coin
