import HoneyBadgerBFT.CommonCoin.Party
import HoneyBadgerBFT.Library.Drain

/-!
# Common coin: agreement

All shares that a party takes in for a round are powers of one message, so whichever `f+1` come first
combine to the signature of the secret, and to the bit of that (`Call`).  The round gets its bit when
the number of shares passes `f+1`, which happens once.  One of the `f+1` senders is honest and has
called `getCoin`.
-/

namespace Coin
open Async Trans Party TSIG

variable {p : ℕ} [Fact p.Prime] {G₁ G₂ T : Type} [CommGroup G₁] [CommGroup G₂] [CommGroup T]
  {E : Charm p G₁ G₂ T} {str : List ℕ → ℤ → List ℕ} {sid : List ℕ}
  {a : List (ZMod p)}

/-- the signature of the secret for the round -/
def coinSig (E : Charm p G₁ G₂ T) (str : List ℕ → ℤ → List ℕ) (sid : List ℕ) (a : List (ZMod p))
    (r : ℤ) : G₁ := message E str sid r ^ (a.headD 0).val

/-- what is known of the shares that a party has taken in -/
structure Shares {n : ℕ} (E : Charm p G₁ G₂ T) (str : List ℕ → ℤ → List ℕ) (sid : List ℕ)
    (a : List (ZMod p)) (received : ℤ → List (Fin n × G₁)) (rcvd : List (Fin n × Share G₁)) :
    Prop where
  nodup : ∀ r, ((received r).map Prod.fst).Nodup
  power : ∀ r, ∀ y ∈ received r, y.2 = message E str sid r ^ (TPKE.secretKey a y.1).val
  arrived : ∀ r, ∀ y ∈ received r, (y.1, ⟨r, y.2⟩) ∈ rcvd

/-- the invariant of a party -/
structure Call {n : ℕ} (E : Charm p G₁ G₂ T) (str : List ℕ → ℤ → List ℕ) (sid : List ℕ)
    (a : List (ZMod p)) (f : ℕ) (nd : Node n (Party n G₁) (Share G₁)) : Prop where
  running : nd.st.recvLoop = .running
  shares : Shares E str sid a nd.st.received nd.rcvd
  early : ∀ r, (nd.st.received r).length ≤ f → nd.st.puts r = [] ∧ nd.st.outputQueue r = []
  late : ∀ r, f < (nd.st.received r).length → nd.st.puts r = [bitOf E (coinSig E str sid a r)]
  sent : ∀ m ∈ nd.st.sent, m.wellFormed = true

/-! ## a share arrives -/

section
variable {N : ℕ} {G : Type} {x : Party N G} {i : Fin N} {m : Share G} {r : ℤ}

/-- the shares after `(i, sig)` has been taken in -/
def Party.add (i : Fin N) (m : Share G) (x : Party N G) : Party N G :=
  { x with received := Function.update x.received m.r (x.received m.r ++ [(i, m.sig)]) }

/-- the state after the bit of the round has been put on its queue -/
def Party.queued (r : ℤ) (bit : Bool) (x : Party N G) : Party N G :=
  { x with
    outputQueue := Function.update x.outputQueue r [bit]
    trace := .put r bit :: x.trace }

theorem add_received_of_ne (hr : r ≠ m.r) : (x.add i m).received r = x.received r :=
  Function.update_of_ne hr ..

theorem add_received_self : (x.add i m).received m.r = x.received m.r ++ [(i, m.sig)] :=
  Function.update_self ..

theorem add_length : ((x.add i m).received m.r).length = (x.received m.r).length + 1 := by
  rw [add_received_self, List.length_append, List.length_singleton]

/-- the senders stay different when a new one comes -/
theorem nodup_concat {L : List (Fin N × G)} {sig : G} (h : (L.map Prod.fst).Nodup)
    (hnew : i ∉ L.map Prod.fst) : ((L ++ [(i, sig)]).map Prod.fst).Nodup := by
  rw [List.map_append]
  refine h.append (List.nodup_singleton i) fun j hj hj' => ?_
  obtain rfl := List.mem_singleton.mp hj'
  exact hnew hj

/-- the party has called `getCoin(r)` -/
def Party.Called (r : ℤ) (x : Party N G) : Prop :=
  ∃ sig, .broadcast ⟨r, sig⟩ ∈ x.trace

theorem called_of_sent (h : m ∈ x.sent) : x.Called m.r := by
  obtain ⟨o, ho, hm⟩ := List.mem_filterMap.mp h
  cases o with
  | broadcast m' =>
    obtain rfl := Option.some.inj hm
    exact ⟨m'.sig, ho⟩
  | put r bit => cases hm

theorem queued_puts (bit : Bool) (r' : ℤ) : (x.queued r bit).puts r' =
    if r = r' then bit :: x.puts r' else x.puts r' := by
  unfold Party.puts Party.queued
  rw [List.filterMap_cons, outBit]
  by_cases hr : r = r'
  · rw [if_pos hr, if_pos hr]
  · rw [if_neg hr, if_neg hr]

end

section
variable {N f : ℕ} {x : Party N G₁} {i : Fin N} {m : Share G₁} {rcvd : List (Fin N × Share G₁)}

theorem Shares.add (hx : Shares E str sid a x.received rcvd)
    (hnew : i ∉ (x.received m.r).map Prod.fst)
    (hsig : m.sig = message E str sid m.r ^ (TPKE.secretKey a i).val) :
    Shares E str sid a (x.add i m).received ((i, m) :: rcvd) := by
  refine ⟨fun r => ?_, fun r y hy => ?_, fun r y hy => ?_⟩ <;> by_cases hr : r = m.r
  · subst hr
    rw [add_received_self]
    exact nodup_concat (hx.nodup m.r) hnew
  · rw [add_received_of_ne hr]
    exact hx.nodup r
  · subst hr
    rw [add_received_self] at hy
    rcases List.mem_append.mp hy with hold | hone
    · exact hx.power m.r y hold
    · rw [List.mem_singleton.mp hone]
      exact hsig
  · rw [add_received_of_ne hr] at hy
    exact hx.power r y hy
  · subst hr
    rw [add_received_self] at hy
    rcases List.mem_append.mp hy with hold | hone
    · exact List.mem_cons_of_mem _ (hx.arrived m.r y hold)
    · rw [List.mem_singleton.mp hone]
      exact List.mem_cons_self
  · rw [add_received_of_ne hr] at hy
    exact List.mem_cons_of_mem _ (hx.arrived r y hy)

/-- a call of `getCoin` and its `get()` keep the invariant -/
theorem Call.act (SK : Option (PrivateKey p G₂)) (hx : Call E str sid a f ⟨x, rcvd⟩) {b : Act}
    {y : Party N G₁} (hy : x.act E str sid SK b = some y) : Call E str sid a f ⟨y, rcvd⟩ := by
  cases b with
  | getCoin r =>
    obtain ⟨SK, -, rfl⟩ := Option.map_eq_some_iff.mp hy
    refine ⟨hx.running, hx.shares, hx.early, hx.late, fun m hm => ?_⟩
    rcases List.mem_cons.mp hm with rfl | hold
    · exact decide_eq_true (Int.natCast_nonneg r)
    · exact hx.sent m hold
  | take r =>
    unfold Party.act Party.take at hy
    dsimp only at hy
    split at hy
    · next k bit rest _ hq =>
      obtain rfl := Option.some.inj hy
      refine ⟨hx.running, hx.shares, fun r' hr' => ?_, hx.late, hx.sent⟩
      obtain ⟨hputs, hempty⟩ : x.puts r' = [] ∧ x.outputQueue r' = [] := hx.early r' hr'
      have hne : r' ≠ r := by
        rintro rfl
        rw [hq] at hempty
        cases hempty
      exact ⟨hputs, (Function.update_of_ne hne ..).trans hempty⟩
    · cases hy

variable [DecidableEq T]

theorem recv_sent (E : Charm p G₁ G₂ T) (str : List ℕ → ℤ → List ℕ) (sid : List ℕ)
    (PK : PublicKey G₂) (i : Fin N) (m : Share G₁) (x : Party N G₁) :
    (x.recv E str sid f PK i m).sent = x.sent := by
  unfold Party.recv Party.output Party.putNowait
  dsimp only
  repeat' split
  all_goals rfl

/-- a bit that is put on its queue is put on an empty one -/
theorem recv_queue (E : Charm p G₁ G₂ T) (str : List ℕ → ℤ → List ℕ) (sid : List ℕ)
    (PK : PublicKey G₂) (i : Fin N) (m : Share G₁) (x : Party N G₁) :
    ((x.recv E str sid f PK i m).outputQueue = x.outputQueue ∧
      (x.recv E str sid f PK i m).trace = x.trace) ∨
    ∃ bit, x.outputQueue m.r = [] ∧ (x.recv E str sid f PK i m).outputQueue =
        Function.update x.outputQueue m.r [bit] ∧
      (x.recv E str sid f PK i m).trace = .put m.r bit :: x.trace := by
  unfold Party.recv Party.output Party.putNowait
  dsimp only
  repeat' split
  all_goals first
    | exact .inl ⟨rfl, rfl⟩
    | exact .inr ⟨_, ‹_›, rfl, rfl⟩

/-- a share is dropped, or taken in, or it is the one that makes the round complete -/
theorem recv_cases (hr : 0 ≤ m.r) :
    x.recv E str sid f (publicKey E N (f + 1) a) i m = x ∨
    (i ∉ (x.received m.r).map Prod.fst ∧
      m.sig = message E str sid m.r ^ (TPKE.secretKey a i).val ∧
      x.recv E str sid f (publicKey E N (f + 1) a) i m =
        if (x.received m.r).length = f then
          (x.add i m).output E str sid f (publicKey E N (f + 1) a) m.r
        else x.add i m) := by
  unfold Party.recv
  rw [if_neg (not_lt.mpr hr)]
  by_cases hold : ∃ y ∈ x.received m.r, y.1 = i
  · exact .inl (if_pos hold)
  · rw [if_neg hold]
    by_cases hv : verifyShare E (publicKey E N (f + 1) a) m.sig i (message E str sid m.r) = false
    · exact .inl (if_pos hv)
    · rw [if_neg hv]
      refine .inr ⟨fun h => hold (List.mem_map.mp h),
        (verifyShare_iff.mp (eq_true_of_ne_false hv)).2, ?_⟩
      show (if ((x.add i m).received m.r).length = f + 1 then _ else _) = _
      rw [add_length]
      by_cases hf : (x.received m.r).length = f
      · rw [if_pos hf, if_pos (congrArg (· + 1) hf)]
        rfl
      · rw [if_neg hf, if_neg fun h => hf (Nat.succ.inj h)]
        rfl

omit [DecidableEq T] in
/-- `f+1` shares for one message, of different parties, combine to the signature of the secret -/
theorem combine_eq (hN : N < p) (ha : a.length = f + 1) {L : List (Fin N × G₁)} {h : G₁}
    (hnodup : (L.map Prod.fst).Nodup) (hlen : L.length = f + 1)
    (hpower : ∀ y ∈ L, y.2 = h ^ (TPKE.secretKey a y.1).val) :
    combineShares p (publicKey E N (f + 1) a) (L.map fun y => (y.1.val, y.2)) =
      some (h ^ (a.headD 0).val) := by
  refine combineShares_eq hN (Nat.succ_pos f) ha _ ?_ (by rw [List.length_map, hlen]) ?_
  · have hids := hnodup.map Fin.val_injective
    rwa [List.map_map] at hids ⊢
  · intro y hy
    obtain ⟨z, hz, rfl⟩ := List.mem_map.mp hy
    exact ⟨z.1.isLt, hpower z hz⟩

/-- **the output of a complete round**: the assertion holds and the queue has room -/
theorem output_eq (hN : N < p) (ha : a.length = f + 1) (hx : Shares E str sid a x.received rcvd)
    {r : ℤ} (hlen : (x.received r).length = f + 1) (hempty : x.outputQueue r = []) :
    x.output E str sid f (publicKey E N (f + 1) a) r =
      x.queued r (bitOf E (coinSig E str sid a r)) := by
  have hcomb := combine_eq (E := E) hN ha (hx.nodup r) hlen (hx.power r)
  have hver : verifySignature E (publicKey E N (f + 1) a) (coinSig E str sid a r)
      (message E str sid r) = true := verifySignature_iff.mpr rfl
  unfold Party.output
  dsimp only
  rw [List.take_of_length_le (le_of_eq hlen), hcomb]
  show (if verifySignature E _ (coinSig E str sid a r) _ = true then _ else _) = _
  rw [if_pos hver]
  exact if_pos hempty

omit [DecidableEq T] in
/-- a share is taken in, and its round was complete before or is not complete now -/
theorem Call.add (hx : Call E str sid a f ⟨x, rcvd⟩)
    (hadd : Shares E str sid a (x.add i m).received ((i, m) :: rcvd))
    (hf : (x.received m.r).length ≠ f) : Call E str sid a f ⟨x.add i m, (i, m) :: rcvd⟩ := by
  have hlen := add_length (x := x) (i := i) (m := m)
  refine ⟨hx.running, hadd, fun r hr => hx.early r ?_, fun r hr => hx.late r ?_, hx.sent⟩
  · show (x.received r).length ≤ f
    change ((x.add i m).received r).length ≤ f at hr
    by_cases hr' : r = m.r
    · subst hr'
      omega
    · rwa [add_received_of_ne hr'] at hr
  · show f < (x.received r).length
    change f < ((x.add i m).received r).length at hr
    by_cases hr' : r = m.r
    · subst hr'
      omega
    · rwa [add_received_of_ne hr'] at hr

omit [DecidableEq T] in
/-- the share makes its round complete, and the bit is put -/
theorem Call.queued (hx : Call E str sid a f ⟨x, rcvd⟩)
    (hadd : Shares E str sid a (x.add i m).received ((i, m) :: rcvd))
    (hf : (x.received m.r).length = f) : Call E str sid a f
      ⟨(x.add i m).queued m.r (bitOf E (coinSig E str sid a m.r)), (i, m) :: rcvd⟩ := by
  have hlen := add_length (x := x) (i := i) (m := m)
  have hearly : ∀ r, (x.received r).length ≤ f → x.puts r = [] ∧ x.outputQueue r = [] := hx.early
  refine ⟨hx.running, hadd, fun r hr => ?_, fun r hr => ?_, hx.sent⟩
  · have hle : ((x.add i m).received r).length ≤ f := hr
    have hne : m.r ≠ r := by
      rintro rfl
      omega
    rw [add_received_of_ne hne.symm] at hle
    rw [queued_puts, if_neg hne]
    exact ⟨(hearly r hle).1, (Function.update_of_ne hne.symm ..).trans (hearly r hle).2⟩
  · rw [queued_puts]
    by_cases hr' : m.r = r
    · subst hr'
      rw [if_pos rfl]
      exact congrArg _ (hearly m.r hf.le).1
    · have hlt : f < ((x.add i m).received r).length := hr
      rw [add_received_of_ne (Ne.symm hr')] at hlt
      rw [if_neg hr']
      exact hx.late r hlt

/-- the arrival of a share keeps the invariant -/
theorem Call.recv (hN : N < p) (ha : a.length = f + 1) (hx : Call E str sid a f ⟨x, rcvd⟩)
    (hm : m.wellFormed = true) :
    Call E str sid a f ⟨x.recv E str sid f (publicKey E N (f + 1) a) i m, (i, m) :: rcvd⟩ := by
  rcases (recv_cases (of_decide_eq_true hm) :
    x.recv E str sid f (publicKey E N (f + 1) a) i m = x ∨ _) with heq | ⟨hnew, hsig, heq⟩ <;> rw [heq]
  · exact ⟨hx.running, ⟨hx.shares.nodup, hx.shares.power,
      fun r y hy => List.mem_cons_of_mem _ (hx.shares.arrived r y hy)⟩, hx.early, hx.late, hx.sent⟩
  · have hadd := hx.shares.add hnew hsig
    by_cases hf : (x.received m.r).length = f
    · rw [if_pos hf, output_eq hN ha hadd (add_length.trans (congrArg (· + 1) hf))
        (hx.early m.r hf.le).2]
      exact hx.queued hadd hf
    · rw [if_neg hf]
      exact hx.add hadd hf

end

/-! ## runs -/

section
variable [DecidableEq G₁] [DecidableEq T] {C : Committee} {secret : ZMod p}
  {rest : List (ZMod p)} {PK : PublicKey G₂} {SKs : List (PrivateKey p G₂)}
  {ok : Net C.N (Party C.N G₁) (Share G₁) → Label C.N (Share G₁) Act → Prop}
  {s : Net C.N (Party C.N G₁) (Share G₁)}

theorem reached_call (hN : C.N < p)
    (hdeal : dealer E C.N (C.f + 1) secret rest = some (PK, SKs))
    (h : (protocol E str sid C PK SKs).Reachable Share.wellFormed ok s) :
    ∀ q, C.Honest q → Call E str sid (secret :: rest) C.f (s q) := by
  obtain ⟨ha, rfl, -⟩ := dealer_spec E hdeal
  refine node_invariant_wf (fun _ nd => Call E str sid (secret :: rest) C.f nd)
    (fun _ nd _ hx _ => hx.sent) (fun _ _ => ?_) (fun _ src m nd _ hx _ hm => hx.recv hN ha hm)
    (fun q _ _ _ _ hx hy => Call.act SKs[q.val]? hx hy) h
  refine ⟨if_pos ⟨rfl, rfl⟩, ⟨?_, ?_, ?_⟩, fun _ _ => ⟨rfl, rfl⟩, ?_, ?_⟩
  · exact fun _ => List.nodup_nil
  · exact fun _ y hy => absurd hy List.not_mem_nil
  · exact fun _ y hy => absurd hy List.not_mem_nil
  · exact fun _ hlt => absurd hlt (Nat.not_lt_zero _)
  · exact fun m hm => absurd hm List.not_mem_nil

omit [DecidableEq G₁] in
theorem grows : (protocol E str sid C PK SKs).Grows := by
  constructor
  · intro q i m x _
    show x.sent <:+ (x.recv E str sid C.f PK i m).sent
    rw [recv_sent]
  · intro q b x y _ hy
    cases b with
    | getCoin r =>
      obtain ⟨SK, -, rfl⟩ := Option.map_eq_some_iff.mp hy
      exact List.suffix_cons _ _
    | take r =>
      change x.take r = some y at hy
      unfold Party.take at hy
      split at hy
      · obtain rfl := Option.some.inj hy
        exact List.suffix_refl _
      · cases hy

omit [DecidableEq G₁] in
theorem monotone : (protocol E str sid C PK SKs).Monotone := grows.monotone

omit [DecidableEq G₁] in
/-- a bit that waits in a queue has been put there -/
theorem queue_puts {q : Fin C.N} {nd : Node C.N (Party C.N G₁) (Share G₁)}
    (h : (protocol E str sid C PK SKs).ReachableAlone q nd) (r : ℤ) :
    nd.st.outputQueue r ⊆ nd.st.puts r := by
  refine alone_invariant (fun nd : Node C.N (Party C.N G₁) (Share G₁) =>
    nd.st.outputQueue r ⊆ nd.st.puts r) (List.nil_subset _) (fun i m nd hx _ => ?_)
    (fun b nd y hx hy => ?_) h
  · show (nd.st.recv E str sid C.f PK i m).outputQueue r ⊆ (nd.st.recv E str sid C.f PK i m).puts r
    rcases recv_queue E str sid PK i m nd.st with ⟨hq, ht⟩ | ⟨bit, -, hq, ht⟩ <;>
      rw [hq, Party.puts, ht]
    · exact hx
    · rw [List.filterMap_cons, outBit]
      by_cases hr : m.r = r
      · subst hr
        rw [if_pos rfl, Function.update_self]
        exact List.cons_subset_cons _ (List.nil_subset _)
      · rw [if_neg hr, Function.update_of_ne (Ne.symm hr)]
        exact hx
  · cases b with
    | getCoin r' =>
      obtain ⟨SK, -, rfl⟩ := Option.map_eq_some_iff.mp hy
      exact hx
    | take r' =>
      change nd.st.take r' = some y at hy
      unfold Party.take at hy
      split at hy
      · next k bit rest _ hq =>
        obtain rfl := Option.some.inj hy
        show Function.update nd.st.outputQueue r' rest r ⊆ nd.st.puts r
        by_cases hr : r = r'
        · subst hr
          rw [Function.update_self]
          exact List.Subset.trans (hq ▸ List.subset_cons_self bit rest) hx
        · rw [Function.update_of_ne hr]
          exact hx
      · cases hy

/-- **one of `f+1` senders is honest**, and has called `getCoin` -/
theorem exists_called (h : (protocol E str sid C PK SKs).Reachable Share.wellFormed ok s)
    {a : List (ZMod p)} {q : Fin C.N} (hq : C.Honest q) {r : ℤ}
    (hx : Shares E str sid a (s q).st.received (s q).rcvd)
    (hlen : C.f < ((s q).st.received r).length) : ∃ q', C.Honest q' ∧ (s q').st.Called r := by
  have hcard : C.f + 1 ≤ (((s q).st.received r).map Prod.fst).toFinset.card := by
    rw [List.toFinset_card_of_nodup (hx.nodup r), List.length_map]
    exact hlen
  obtain ⟨q', hmem, hq'⟩ := Committee.exists_honest hcard
  obtain ⟨y, hy, rfl⟩ := List.mem_map.mp (List.mem_toFinset.mp hmem)
  have hsent := authentic monotone h q hq _ _ (hx.arrived r y hy)
  rw [if_pos hq'] at hsent
  exact ⟨y.1, hq', called_of_sent (m := ⟨r, y.2⟩) hsent⟩

end

/-! ## four parties -/

instance prime7 : Fact (Nat.Prime 7) := ⟨Nat.prime_seven⟩

abbrev Z7 := Multiplicative (ZMod 7)

/-- the pairing is the product in `ZMod 7`, and a text hashes to the sum of its code points -/
def seven : Charm 7 Z7 Z7 Z7 where
  pow_order := by decide
  pair a b := Multiplicative.ofAdd (a.toAdd * b.toAdd)
  pair_mul_left := by decide
  pair_mul_right := by decide
  g1 := Multiplicative.ofAdd 1
  g2 := Multiplicative.ofAdd (-1)
  generates g := ⟨g.toAdd.val, by revert g; decide⟩
  nondegenerate := by decide +kernel
  serialize g := [g.toAdd.val.toUInt8]
  hash m := Multiplicative.ofAdd (m.sum : ZMod 7)

namespace four

def text (sid : List ℕ) (r : ℤ) : List ℕ := sid ++ [r.toNat]

def PK : PublicKey Z7 := publicKey seven 4 2 [3, 1]

def SKs : List (PrivateKey 7 Z7) := (List.range 4).map (privateKey seven 4 2 [3, 1])

/-- the share of the party `i` for the round 0 -/
def share (i : ℕ) : Share Z7 := ⟨0, sign (privateKey seven 4 2 [3, 1] i) (message seven text [83] 0)⟩

/-- the parties 0 and 1 call `getCoin(0)`; the party 2 gets a wrong and a right share of the party 3 -/
def run : List (Label Committee.four.N (Share Z7) Act) :=
  [.act 0 (.getCoin 0), .act 1 (.getCoin 0), .deliver 0 1 (share 1), .deliver 0 0 (share 0),
    .deliver 2 3 (share 2), .deliver 2 3 (share 3), .deliver 2 1 (share 1), .act 0 (.take 0)]

theorem dealt : dealer seven 4 2 3 [1] = some (PK, SKs) :=
  dealer_eq seven (by decide) (by decide) 3 rfl

end four

/-! ## agreement -/

/-- **agreement of the coin** -/
theorem coin_agreement (E : Charm p G₁ G₂ T) [DecidableEq G₁] [DecidableEq T]
    (str : List ℕ → ℤ → List ℕ) (sid : List ℕ) (C : Committee) (hN : C.N < p)
    (secret : ZMod p) (rest : List (ZMod p)) (PK : PublicKey G₂) (SKs : List (PrivateKey p G₂))
    (hdeal : dealer E C.N (C.f + 1) secret rest = some (PK, SKs))
    (s : Net C.N (Party C.N G₁) (Share G₁))
    (h : (protocol E str sid C PK SKs).Reachable Share.wellFormed (fun _ _ => True) s) :
    (∀ q, C.Honest q → (s q).st.recvLoop = .running) ∧
    (∀ q, C.Honest q → ∀ r, ((s q).st.puts r).length =
      if C.f + 1 ≤ ((s q).st.received r).length then 1 else 0) ∧
    (∀ q q', C.Honest q → C.Honest q' → ∀ r, ∀ bit ∈ (s q).st.puts r, ∀ bit' ∈ (s q').st.puts r,
      bit = bit') ∧
    ∀ q, C.Honest q → ∀ r, ∀ bit ∈ (s q).st.puts r, ∃ q', C.Honest q' ∧ (s q').st.Called r := by
  have hcall := reached_call hN hdeal h
  have hlate {q : Fin C.N} (hq : C.Honest q) {r : ℤ} {bit : Bool} (hb : bit ∈ (s q).st.puts r) :
      C.f < ((s q).st.received r).length := by
    by_contra hle
    rw [((hcall q hq).early r (not_lt.mp hle)).1] at hb
    cases hb
  have hbit {q : Fin C.N} (hq : C.Honest q) {r : ℤ} {bit : Bool} (hb : bit ∈ (s q).st.puts r) :
      bit = bitOf E (coinSig E str sid (secret :: rest) r) := by
    have hone := hb
    rw [(hcall q hq).late r (hlate hq hb)] at hone
    exact List.mem_singleton.mp hone
  refine ⟨fun q hq => (hcall q hq).running, fun q hq r => ?_, ?_, ?_⟩
  · by_cases hr : C.f + 1 ≤ ((s q).st.received r).length
    · rw [if_pos hr, (hcall q hq).late r hr]
      rfl
    · rw [if_neg hr, ((hcall q hq).early r (by omega)).1]
      rfl
  · intro q q' hq hq' r bit hb bit' hb'
    exact (hbit hq hb).trans (hbit hq' hb').symm
  · intro q hq r bit hb
    exact exists_called h hq (hcall q hq).shares (hlate hq hb)

theorem coin_agreement_four : ∃ s : Net 4 (Party 4 Z7) (Share Z7),
    (protocol seven four.text [83] Committee.four four.PK four.SKs).Reachable Share.wellFormed
      (fun _ _ => True) s ∧
    (s 0).st.puts 0 = [true] ∧ (s 2).st.puts 0 = [true] ∧ (s 2).st.recvLoop = .running ∧
    ∃ q', Committee.four.Honest q' ∧ (s q').st.Called 0 := by
  have hexec : (exec ((protocol seven four.text [83] Committee.four four.PK four.SKs).next
      Share.wellFormed) (fun _ _ => true)
      (protocol seven four.text [83] Committee.four four.PK four.SKs).start four.run).any
      (fun s => (s 0).st.puts 0 == [true] && (s 2).st.puts 0 == [true]) = true := by
    decide +kernel
  obtain ⟨s, hs, hgood⟩ := exists_reach_of_exec (fun _ _ _ => trivial) hexec
  simp only [Bool.and_eq_true, beq_iff_eq] at hgood
  obtain ⟨hrun, -, -, hcalled⟩ := coin_agreement seven four.text [83] Committee.four (by decide) 3
    [1] four.PK four.SKs four.dealt s hs
  exact ⟨s, hs, hgood.1, hgood.2, hrun 2 (by decide),
    hcalled 2 (by decide) 0 true (by rw [hgood.2]; exact List.mem_singleton_self true)⟩

end Coin
