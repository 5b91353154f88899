import HoneyBadgerBFT.ReliableBroadcast.Codeword
import HoneyBadgerBFT.ReliableBroadcast.Padding
import HoneyBadgerBFT.ReliableBroadcast.Untyped

/-!
# Reliable broadcast: runs in which the types are right where they matter

A Byzantine message can be skipped, or it gets into the tables.  Where every ECHO message that gets
into them brings `bytes` (`Harmless`), a run of the untyped calls is followed by a run of the calls of
`RBC.Party`: what is skipped is no step there, and neither is a READY message for a root hash that is
not `bytes`, as all of its senders are Byzantine.

* `Like`         the states of one call on the two sides;
* `exists_typed` the run that follows.
-/

namespace RBC.Raw
open Async Trans

variable {C : Committee} {S : Setup C}

/-- the message with the same fields -/
def ofTyped : RBC.Msg → Msg
  | .VAL roothash branch stripe => .VAL (.bytes roothash) (.list (branch.map .bytes)) (.bytes stripe)
  | .ECHO roothash branch stripe =>
    .ECHO (.bytes roothash) (.list (branch.map .bytes)) (.bytes stripe)
  | .READY roothash => .READY (.bytes roothash)

theorem ofTyped_inj : Function.Injective ofTyped := by
  have hbytes : Function.Injective PyVal.bytes := fun a b h => PyVal.bytes.inj h
  intro m m' h
  cases m <;> cases m' <;> simp only [ofTyped, Msg.VAL.injEq, Msg.ECHO.injEq, Msg.READY.injEq,
    PyVal.bytes.injEq, PyVal.list.injEq, hbytes.list_map.eq_iff, reduceCtorEq] at h ⊢
  all_goals simpa using h

/-- the state of a call, and of the call with any values -/
structure Like (y : RBC.Party C.N) (x : Party C.N) : Prop where
  status : x.status = y.status
  m : x.m = y.m
  fromLeader : x.fromLeader = y.fromLeader.map .bytes
  stripes : ∀ r i, x.stripes (.bytes r) i = (y.stripes r i).map .bytes
  stripes_other : ∀ k, k.asBytes = none → ∀ i, x.stripes k i = none
  echoCounter : ∀ r, x.echoCounter (.bytes r) = y.echoCounter r
  echoSenders : x.echoSenders = y.echoSenders
  ready : ∀ r, x.ready (.bytes r) = y.ready r
  ready_other : ∀ k, k.asBytes = none → ∀ i ∈ x.ready k, ¬ C.Honest i
  readySent : x.readySent = y.readySent
  readySenders : y.readySenders ⊆ x.readySenders
  readySenders_honest : ∀ i ∈ x.readySenders, C.Honest i → i ∈ y.readySenders
  sent : ∀ i, x.sent i = (y.sent i).map ofTyped
  hashed : y.hashed ⊆ x.hashed

/-! ## the parts of a turn -/

namespace Like
variable {y : RBC.Party C.N} {x : Party C.N} (h : Like y x) {src : Fin C.N} {r b : Bytes}
include h

/-- only the untyped call hashes -/
theorem hash_left (hs : List Bytes) : Like y (x.hash hs) :=
  { h with hashed := List.subset_append_of_subset_right hs h.hashed }

theorem hash (hs : List Bytes) : Like (y.hash hs) (x.hash hs) := by
  refine { h with hashed := List.append_subset.mpr ?_ }
  exact ⟨List.subset_append_left _ _, List.subset_append_of_subset_right hs h.hashed⟩

theorem raised : Like { y with status := .raised } x.raised := { h with status := rfl }

theorem broadcast (o : RBC.Msg) : Like (y.broadcast o) (x.broadcast (ofTyped o)) :=
  { h with sent := fun i => congrArg (ofTyped o :: ·) (h.sent i) }

theorem sendReady (r : Bytes) : Like (y.sendReady r) (x.sendReady (.bytes r)) :=
  { h.broadcast (.READY r) with readySent := rfl }

theorem decodeOutput (r : Bytes) : Like (y.decodeOutput S r) (x.decodeOutput S (.bytes r)) := by
  have htable : x.stripes (.bytes r) = fun i => (y.stripes r i).map .bytes :=
    funext fun i => h.stripes r i
  unfold RBC.Party.decodeOutput Party.decodeOutput
  rw [htable, decodeVal_bytes]
  cases decode S.zfec (y.stripes r) with
  | none => exact h.raised
  | some m =>
    dsimp only
    cases encode S.zfec (.bytes m) with
    | none => exact h.raised
    | some code =>
      dsimp only
      have hh := h.hash (treeHashed S.H code)
      by_cases hroot : (merkleTree S.H code).getD 1 [] = r
      · rw [if_pos hroot, if_pos (congrArg _ hroot)]
        exact { hh with status := rfl }
      · rw [if_neg hroot, if_neg fun e => hroot (PyVal.bytes.inj e)]
        exact hh.raised

theorem tryOutput (r : Bytes) : Like (y.tryOutput S r) (x.tryOutput S (.bytes r)) := by
  unfold RBC.Party.tryOutput Party.tryOutput
  rw [h.ready, h.echoCounter]
  split
  · exact h.decodeOutput r
  · exact h

theorem addEcho (src : Fin C.N) (r b : Bytes) :
    Like (y.addEcho src r b) (x.addEcho src (.bytes r) (.bytes b)) := by
  refine { h with
    stripes := fun r' i => ?_
    stripes_other := fun k hk i => ?_
    echoCounter := fun r' => ?_
    echoSenders := congrArg (insert src) h.echoSenders }
  · rw [Party.addEcho_stripes, RBC.addEcho_stripes, h.stripes]
    by_cases hri : r' = r ∧ i = src
    · rw [if_pos hri, if_pos ⟨congrArg _ hri.1, hri.2⟩]
      rfl
    · rw [if_neg hri, if_neg fun e => hri ⟨PyVal.bytes.inj e.1, e.2⟩]
  · rw [Party.addEcho_stripes, if_neg fun e => PyVal.ne_bytes hk e.1]
    exact h.stripes_other k hk i
  · rw [addEcho_counter]
    show Function.update x.echoCounter (.bytes r) (x.echoCounter (.bytes r) + 1) (.bytes r') = _
    by_cases hr : r' = r
    · rw [hr, Function.update_self, if_pos rfl, h.echoCounter]
    · rw [Function.update_of_ne fun e => hr (PyVal.bytes.inj e), if_neg hr, h.echoCounter]

theorem addReady (src : Fin C.N) (r : Bytes) :
    Like (y.addReady src r) (x.addReady src (.bytes r)) := by
  refine { h with
    ready := fun r' => ?_
    ready_other := fun k hk => ?_
    readySenders := Finset.insert_subset_insert src h.readySenders
    readySenders_honest := fun i hi hh => ?_ }
  · rw [addReady_ready]
    show Function.update x.ready (.bytes r) (insert src (x.ready (.bytes r))) (.bytes r') = _
    by_cases hr : r' = r
    · rw [hr, Function.update_self, if_pos rfl, h.ready]
    · rw [Function.update_of_ne fun e => hr (PyVal.bytes.inj e), if_neg hr, h.ready]
  · show ∀ i ∈ Function.update x.ready _ _ k, _
    rw [Function.update_of_ne (PyVal.ne_bytes hk)]
    exact h.ready_other k hk
  · rcases Finset.mem_insert.mp hi with rfl | hi
    · exact Finset.mem_insert_self _ _
    · exact Finset.mem_insert_of_mem (h.readySenders_honest i hi hh)

/-- a READY message of a Byzantine party for a key that is not `bytes` -/
theorem addReady_other {k : PyVal} (hk : k.asBytes = none) (hsrc : ¬ C.Honest src) :
    Like y (x.addReady src k) := by
  refine { h with
    ready := fun r' => ?_
    ready_other := fun k' hk' => ?_
    readySenders := h.readySenders.trans (Finset.subset_insert _ _)
    readySenders_honest := fun i hi hh => ?_ }
  · exact Eq.trans (Function.update_of_ne (PyVal.ne_bytes hk).symm _ _) (h.ready r')
  · show ∀ i ∈ Function.update x.ready k (insert src (x.ready k)) k', _
    by_cases he : k' = k
    · subst he
      rw [Function.update_self]
      intro i hi
      rcases Finset.mem_insert.mp hi with rfl | hi
      · exact hsrc
      · exact h.ready_other k' hk i hi
    · rw [Function.update_of_ne he]
      exact h.ready_other k' hk'
  · rcases Finset.mem_insert.mp hi with rfl | hi
    · exact absurd hh hsrc
    · exact h.readySenders_honest i hi hh

/-! ## a turn -/

theorem hasEcho_iff : x.HasEcho src (.bytes r) ↔ y.stripes r src ≠ none ∨ src ∈ y.echoSenders := by
  unfold Party.HasEcho
  rw [h.stripes, h.echoSenders, Ne, Option.map_eq_none_iff]

/-- an ECHO message that gets in with the bytes `b` -/
theorem takeEcho (pid : Fin C.N) {branch stripe : PyVal} {bs : List Bytes} {t : Text}
    (hnew : ¬ x.HasEcho src (.bytes r)) (hval : stripe.text = some t) (ht : t.toBytes = some b)
    (hbranch : branch.items = some (bs.map .bytes)) (hv : merkleVerify S.H C.N b r bs src = some true) :
    Like (y.recv S pid src (.ECHO r bs b))
      ((x.hash (verifyHashedVal S.H C.N stripe branch src)).takeEcho S src (.bytes r) (.bytes b)) := by
  have ha := (h.hash (verifyHashed S.H C.N b bs src)).addEcho src r b
  show Like (RBC.Party.recvEcho S src r bs b y) _
  unfold RBC.Party.recvEcho Party.takeEcho
  rw [if_neg (h.hasEcho_iff.not.mp hnew), verifyHashed_eq S.H hval ht hbranch]
  dsimp only
  rw [if_pos hv, ha.echoCounter, ha.readySent]
  split
  · exact (ha.sendReady r).tryOutput r
  · exact ha.tryOutput r

/-- a READY message for `bytes`, unless only the untyped call has one already -/
theorem recvReady (hnew : src ∈ x.readySenders → src ∈ y.readySenders) (r : Bytes) :
    Like (y.recvReady S src r) (x.recvReady S src (.bytes r)) := by
  have hiff : (src ∈ x.ready (.bytes r) ∨ src ∈ x.readySenders) ↔
      (src ∈ y.ready r ∨ src ∈ y.readySenders) := by
    rw [h.ready]
    exact or_congr_right ⟨hnew, fun hi => h.readySenders hi⟩
  unfold RBC.Party.recvReady Party.recvReady Party.takeReady
  rw [if_neg (Bool.noConfusion ·)]
  by_cases hold : src ∈ y.ready r ∨ src ∈ y.readySenders
  · rw [if_pos hold, if_pos (hiff.mpr hold)]
    exact h
  · have ha := h.addReady src r
    rw [if_neg hold, if_neg (hiff.not.mpr hold)]
    dsimp only
    rw [ha.ready, ha.readySent]
    split
    · exact (ha.sendReady r).tryOutput r
    · exact ha.tryOutput r

/-- a message of the right types -/
theorem recv (pid : Fin C.N) (hnew : src ∈ x.readySenders → src ∈ y.readySenders) (m : RBC.Msg) :
    Like (y.recv S pid src m) (x.recv S pid src (ofTyped m)) := by
  cases m with
  | VAL r bs b =>
    show Like (RBC.Party.recvVal S pid src r bs b y) (Party.recvVal S pid src _ _ _ x)
    have hfrom : x.fromLeader ≠ none ↔ y.fromLeader ≠ none := by
      rw [h.fromLeader, Ne, Option.map_eq_none_iff]
    unfold RBC.Party.recvVal Party.recvVal
    by_cases hold : y.fromLeader ≠ none
    · rw [if_pos hold, if_pos (hfrom.mpr hold)]
      exact h
    · rw [if_neg hold, if_neg (hfrom.not.mpr hold)]
      by_cases hsrc : src ≠ S.leader
      · rw [if_pos hsrc, if_pos hsrc]
        exact h
      · rw [if_neg hsrc, if_neg hsrc, verify_bytes, verifyHashed_eq S.H rfl rfl rfl]
        have hh := h.hash (verifyHashed S.H C.N b bs pid)
        dsimp only
        cases hv : merkleVerify S.H C.N b r bs pid with
        | none => exact hh
        | some ok =>
          cases ok with
          | false => exact hh
          | true =>
            rw [if_pos rfl]
            have hf : Like { y.hash (verifyHashed S.H C.N b bs pid) with fromLeader := some r }
                { x.hash (verifyHashed S.H C.N b bs pid) with fromLeader := some (.bytes r) } :=
              { hh with fromLeader := rfl }
            exact hf.broadcast (.ECHO r bs b)
  | ECHO r bs b =>
    by_cases hold : x.HasEcho src (.bytes r)
    · have hskip : x.recvEcho S src (.bytes r) (.list (bs.map .bytes)) (.bytes b) = x :=
        (if_neg (Bool.noConfusion ·)).trans (if_pos hold)
      have hskip' : y.recvEcho S src r bs b = y := if_pos (h.hasEcho_iff.mp hold)
      show Like (RBC.Party.recvEcho S src r bs b y) (Party.recvEcho S src _ _ _ x)
      rw [hskip, hskip']
      exact h
    · have hx : x.recvEcho S src (.bytes r) (.list (bs.map .bytes)) (.bytes b) = _ :=
        (if_neg (Bool.noConfusion ·)).trans (if_neg hold)
      show Like _ (Party.recvEcho S src _ _ _ x)
      rw [hx]
      dsimp only
      rw [verify_bytes]
      have hskip (hv : merkleVerify S.H C.N b r bs src ≠ some true) :
          Like (y.recv S pid src (.ECHO r bs b))
            (x.hash (verifyHashedVal S.H C.N (.bytes b) (.list (bs.map .bytes)) src)) := by
        have hy : y.recv S pid src (.ECHO r bs b) = y.hash (verifyHashed S.H C.N b bs src) :=
          (if_neg (h.hasEcho_iff.not.mp hold)).trans (if_neg hv)
        rw [hy, verifyHashed_eq S.H rfl rfl rfl]
        exact h.hash _
      cases hv : merkleVerify S.H C.N b r bs src with
      | none => exact hskip (by rw [hv]; simp)
      | some ok =>
        cases ok with
        | false => exact hskip (by rw [hv]; simp)
        | true => exact h.takeEcho pid hold rfl rfl rfl hv
  | READY r => exact h.recvReady hnew r

/-- for such a key there are at most `f` senders -/
theorem takeReady_other {k : PyVal} (hk : k.asBytes = none) (hsrc : ¬ C.Honest src) :
    Like y (x.takeReady S src k) := by
  have ha := h.addReady_other hk hsrc
  have hcard : ((x.addReady src k).ready k).card ≤ C.f := by
    refine le_trans (Finset.card_le_card fun i hi => ?_) C.faulty
    exact not_not.mp (ha.ready_other k hk i hi)
  unfold Party.takeReady Party.tryOutput
  dsimp only
  have hsend : ¬ (C.f + 1 ≤ ((x.addReady src k).ready k).card ∧
      (x.addReady src k).readySent = false) := fun hc => by omega
  rw [if_neg hsend, if_neg fun hc => by omega]
  exact ha

end Like

/-! ## a Byzantine message -/

/-- the stripe is no `str`, and as long as those that Byzantine parties have got in for its root -/
def Fits (C : Committee) (x : Party C.N) (roothash stripe : PyVal) : Prop :=
  stripe.isStr = false ∧ ∀ i, ¬ C.Honest i → ∀ y ∈ x.stripes roothash i,
    y.asBytes.map List.length = stripe.asBytes.map List.length

instance (x : Party C.N) (roothash stripe : PyVal) : Decidable (Fits C x roothash stripe) :=
  inferInstanceAs (Decidable (_ ∧ _))

/-- a message from a Byzantine party other than the leader that the call `x` can take: its root hash
can be a key, and an ECHO message that is not redundant raises an `AssertionError` at most, and gets
in with a stripe that fits -/
def Harmless (S : Setup C) (x : Party C.N) (src : Fin C.N) : Msg → Prop
  | .VAL _ _ _ => True
  | .ECHO roothash branch stripe => roothash.hashable = true ∧ (x.HasEcho src roothash ∨
      (checkable C.N stripe roothash branch = true ∧
        (merkleVerifyVal S.H C.N stripe roothash branch src = .ok true →
          Fits C x roothash stripe)))
  | .READY roothash => roothash.hashable = true

instance (x : Party C.N) (src : Fin C.N) : (m : Msg) → Decidable (Harmless S x src m)
  | .VAL _ _ _ => inferInstanceAs (Decidable True)
  | .ECHO _ _ _ => inferInstanceAs (Decidable (_ ∧ (_ ∨ (_ ∧ (_ → _)))))
  | .READY _ => inferInstanceAs (Decidable (_ = true))

/-- a harmless ECHO message is skipped, or gets in with a stripe that fits -/
theorem Harmless.echo {x : Party C.N} {src : Fin C.N} {k branch stripe : PyVal}
    (hm : Harmless S x src (.ECHO k branch stripe)) :
    (∃ hs, x.recvEcho S src k branch stripe = x.hash hs) ∨
    (¬ x.HasEcho src k ∧ merkleVerifyVal S.H C.N stripe k branch src = .ok true ∧
      Fits C x k stripe ∧ x.recvEcho S src k branch stripe =
        (x.hash (verifyHashedVal S.H C.N stripe branch src)).takeEcho S src k stripe) := by
  obtain ⟨hkey, hok⟩ := hm
  rcases Party.recvEcho_cases S x src k branch stripe with
    ⟨hbad, -⟩ | ⟨-, -, hskip⟩ | ⟨-, hnew, hv, heq⟩
  · exfalso
    rcases hbad with hbad | ⟨hnew, hbad⟩
    · rw [hkey] at hbad
      cases hbad
    · have hc := (hok.resolve_left hnew).1
      rw [hbad] at hc
      cases hc
  · exact .inl hskip
  · exact .inr ⟨hnew, hv, (hok.resolve_left hnew).2 hv, heq⟩

/-- a harmless READY message is skipped or gets in -/
theorem Harmless.ready {x : Party C.N} {src : Fin C.N} {k : PyVal}
    (hm : Harmless S x src (.READY k)) :
    x.recvReady S src k = x ∨
    (¬ x.HasReady src k ∧ x.recvReady S src k = x.takeReady S src k) := by
  rcases Party.recvReady_cases S x src k with ⟨hbad, -⟩ | ⟨-, -, heq⟩ | ⟨-, hnew, heq⟩
  · rw [show k.hashable = true from hm] at hbad
    cases hbad
  · exact .inl heq
  · exact .inr ⟨hnew, heq⟩

/-- such a message is skipped, or got in by a typed message, or is a READY message for a key that is
not `bytes` -/
theorem Like.harmless {y : RBC.Party C.N} {x : Party C.N} (h : Like y x) {src : Fin C.N}
    (hsrc : ¬ C.Honest src) (hl : src ≠ S.leader) (pid : Fin C.N) {m : Msg}
    (hm : Harmless S x src m) :
    Like y (x.recv S pid src m) ∨ ∃ m', Like (y.recv S pid src m') (x.recv S pid src m) := by
  cases m with
  | VAL k branch stripe =>
    have hskip : x.recv S pid src (.VAL k branch stripe) = x := Party.recvVal_of_ne hl
    rw [hskip]
    exact .inl h
  | ECHO k branch stripe =>
    show Like y (x.recvEcho S src k branch stripe) ∨ ∃ m', Like _ (x.recvEcho S src k branch stripe)
    rcases hm.echo with ⟨hs, heq⟩ | ⟨hnew, hv, hfits, heq⟩
    · rw [heq]
      exact .inl (h.hash_left hs)
    · rw [heq]
      obtain ⟨t, b, r, bs, hval, ht, rfl, hbranch, hv'⟩ := (verify_true_iff S.H).mp hv
      obtain ⟨b', rfl⟩ := PyVal.eq_bytes_of_text hval hfits.1
      obtain rfl := Option.some.inj hval
      obtain rfl := Option.some.inj ht
      exact .inr ⟨_, h.takeEcho pid hnew hval ht hbranch hv'⟩
  | READY k =>
    show Like y (x.recvReady S src k) ∨ ∃ m', Like _ (x.recvReady S src k)
    rcases hm.ready with heq | ⟨hnew, heq⟩
    · rw [heq]
      exact .inl h
    · cases hk : k.asBytes with
      | some r =>
        obtain rfl := PyVal.asBytes_eq_some.mp hk
        exact .inr ⟨.READY r, h.recvReady (fun hi => absurd (.inr hi) hnew) r⟩
      | none =>
        rw [heq]
        exact .inl (h.takeReady_other hk hsrc)

/-! ## runs -/

/-- the lengths that the padding carries, or confuses with those of another message of the same
blocks -/
def Carried (K : ℕ) (m : Text) : Prop :=
  ∃ b, m.toBytes = some b ∧ (Restored K (b.length % K) ∨ Confused K b)

/-- the condition on a step: the messages of Byzantine parties are harmless, and the leader's input
is carried -/
def Guarded (S : Setup C) (s : State C) : Lbl C → Prop
  | .deliver dst src m => C.Honest src ∨ Harmless S (s dst).st src m
  | .act _ m => Carried (C.N - 2 * C.f) m

/-- the condition on the input alone -/
def InputCarried (_ : RBC.State C) : Label C.N RBC.Msg Text → Prop
  | .deliver _ _ _ => True
  | .act _ m => Carried (C.N - 2 * C.f) m

/-- a state of the typed calls beside one of the untyped calls -/
structure Follows (t : RBC.State C) (s : State C) : Prop where
  like : ∀ p, C.Honest p → Like (t p).st (s p).st
  arrived : ∀ p, C.Honest p → ∀ src, C.Honest src → ∀ m,
    (s p).rcvd.count (src, ofTyped m) = (t p).rcvd.count (src, m)

namespace Follows
variable {t : RBC.State C} {s : State C} (h : Follows t s) {p : Fin C.N}
include h

theorem update {y : RBC.Party C.N} {x : Party C.N} {l' : List (Fin C.N × RBC.Msg)}
    {l : List (Fin C.N × Msg)} (hlike : Like y x)
    (hcount : ∀ src, C.Honest src → ∀ m, l.count (src, ofTyped m) = l'.count (src, m)) :
    Follows (Function.update t p ⟨y, l'⟩) (Function.update s p ⟨x, l⟩) := by
  constructor
  · intro q hq
    by_cases hqp : q = p
    · subst hqp
      rw [Function.update_self, Function.update_self]
      exact hlike
    · rw [Function.update_of_ne hqp, Function.update_of_ne hqp]
      exact h.like q hq
  · intro q hq
    by_cases hqp : q = p
    · subst hqp
      rw [Function.update_self, Function.update_self]
      exact hcount
    · rw [Function.update_of_ne hqp, Function.update_of_ne hqp]
      exact h.arrived q hq

/-- only the untyped call has a step -/
theorem update_left {x : Party C.N} {l : List (Fin C.N × Msg)} (hlike : Like (t p).st x)
    (hcount : ∀ src, C.Honest src → ∀ m, l.count (src, ofTyped m) = (t p).rcvd.count (src, m)) :
    Follows t (Function.update s p ⟨x, l⟩) := by
  have hboth := h.update (p := p) hlike hcount
  rwa [show (⟨(t p).st, (t p).rcvd⟩ : Node C.N (RBC.Party C.N) RBC.Msg) = t p from rfl,
    Function.update_eq_self] at hboth

/-- a message from an honest party -/
theorem count_honest (hp : C.Honest p) (src : Fin C.N) (m : RBC.Msg) : ∀ src', C.Honest src' →
    ∀ m', ((src, ofTyped m) :: (s p).rcvd).count (src', ofTyped m') =
      ((src, m) :: (t p).rcvd).count (src', m') := by
  intro src' hsrc' m'
  rw [List.count_cons, List.count_cons, h.arrived p hp src' hsrc' m']
  simp only [beq_iff_eq, Prod.mk.injEq, ofTyped_inj.eq_iff]

/-- a message from a Byzantine party -/
theorem count_byz (hp : C.Honest p) {src : Fin C.N} (hsrc : ¬ C.Honest src) (m : Msg) :
    ∀ src', C.Honest src' → ∀ m', ((src, m) :: (s p).rcvd).count (src', ofTyped m') =
      (t p).rcvd.count (src', m') := by
  intro src' hsrc' m'
  rw [List.count_cons, if_neg, h.arrived p hp src' hsrc' m', Nat.add_zero]
  intro he
  obtain ⟨rfl, -⟩ := Prod.mk.inj (eq_of_beq he)
  exact hsrc hsrc'

theorem count_byz_both (hp : C.Honest p) {src : Fin C.N} (hsrc : ¬ C.Honest src) (m : Msg)
    (m₀ : RBC.Msg) : ∀ src', C.Honest src' → ∀ m',
      ((src, m) :: (s p).rcvd).count (src', ofTyped m') =
        ((src, m₀) :: (t p).rcvd).count (src', m') := by
  intro src' hsrc' m'
  rw [h.count_byz hp hsrc m src' hsrc' m', List.count_cons_of_ne]
  intro he
  obtain ⟨rfl, -⟩ := Prod.mk.inj he
  exact hsrc hsrc'

theorem start {m : Text} (hp : C.Honest p) {x : Party C.N} (hx : (s p).st.act S m = some x) :
    ∃ y, (t p).st.act S m = some y ∧ Like y x := by
  have hlike := h.like p hp
  unfold Party.act at hx
  unfold RBC.Party.act
  rw [hlike.status] at hx
  split at hx
  · next hin =>
    obtain rfl := Option.some.inj hx
    refine ⟨_, if_pos hin, ?_⟩
    unfold RBC.Party.start Party.start
    cases encode S.zfec m with
    | none => exact hlike.raised
    | some code =>
      exact { hlike.hash (treeHashed S.H code) with
        status := rfl
        m := rfl
        sent := fun i => congrArg (_ :: ·) (hlike.sent i) }
  · cases hx

end Follows

/-- **step**: the typed calls follow a guarded step of the untyped ones -/
theorem follow_step (hl : C.Honest S.leader) (s : State C) (e : Lbl C) (s' : State C)
    (t : RBC.State C) (h : Follows t s) (hok : Guarded S s e)
    (hn : (protocol S).next (fun _ => true) s e = some s') :
    ∃ t', Reach ((RBC.protocol S).next fun _ => true) InputCarried t t' ∧ Follows t' s' := by
  rcases next_cases hn with ⟨p, src, m, rfl, hp, hrun, hpend, rfl⟩ | ⟨p, m, x, rfl, hp, hx, rfl⟩
  · have hlike := h.like p hp
    have hlisten : (RBC.protocol S).listening (t p).st = true := by
      have := of_decide_eq_true hrun
      rw [hlike.status] at this
      exact decide_eq_true this
    have hone (m₀ : RBC.Msg) (hm₀ : (RBC.protocol S).pending (fun _ => true) t p src m₀ = true) :
        Reach ((RBC.protocol S).next fun _ => true) InputCarried t (Function.update t p
          ⟨(t p).st.recv S p src m₀, (src, m₀) :: (t p).rcvd⟩) :=
      (Reach.refl t).tail ⟨.deliver p src m₀, trivial, if_pos ⟨hp, hlisten, hm₀⟩⟩
    by_cases hsrc : C.Honest src
    · -- the sender has sent a typed message
      have hlt := pending_honest hsrc hpend
      have hsent : (s src).st.sent p = ((t src).st.sent p).map ofTyped := (h.like src hsrc).sent p
      replace hlt : (s p).rcvd.count (src, m) < ((s src).st.sent p).count m := hlt
      rw [hsent] at hlt
      obtain ⟨m₀, -, rfl⟩ := List.mem_map.mp (List.count_pos_iff.mp (Nat.zero_lt_of_lt hlt))
      rw [List.count_map_of_injective _ _ ofTyped_inj, h.arrived p hp src hsrc] at hlt
      refine ⟨_, hone m₀ ?_, h.update (hlike.recv p (fun hi => ?_) m₀) (h.count_honest hp src m₀)⟩
      · exact (if_pos hsrc).trans (decide_eq_true hlt)
      · exact hlike.readySenders_honest src hi hsrc
    · have hne : src ≠ S.leader := by
        rintro rfl
        exact hsrc hl
      rcases hlike.harmless hsrc hne p (hok.resolve_left hsrc) with hskip | ⟨m₀, hm₀⟩
      · exact ⟨t, Reach.refl t, h.update_left hskip (h.count_byz hp hsrc m)⟩
      · exact ⟨_, hone m₀ (if_neg hsrc), h.update hm₀ (h.count_byz_both hp hsrc m m₀)⟩
  · obtain ⟨y, hy, hlike⟩ := h.start hp hx
    refine ⟨Function.update t p ⟨y, (t p).rcvd⟩, ?_, h.update hlike (h.arrived p hp)⟩
    refine (Reach.refl t).tail ⟨.act p m, hok, (if_pos hp).trans ?_⟩
    rw [show (RBC.protocol S).act p m (t p).st = some y from hy]
    rfl

/-- **run**: a run of the typed calls follows every guarded run of the untyped ones -/
theorem exists_typed (hl : C.Honest S.leader) {s : State C} (h : Reached S (Guarded S) s) :
    ∃ t, (RBC.protocol S).Reachable (fun _ => true) InputCarried t ∧ Follows t s := by
  refine Reach.simulation (fun s t => Follows t s)
    (fun s e s' t ht hok hn => follow_step hl s e s' t ht hok hn) h
    ⟨fun p _ => ?_, fun _ _ _ _ _ => rfl⟩
  exact ⟨rfl, rfl, rfl, fun _ _ => rfl, fun _ _ _ => rfl, fun _ => rfl, rfl, fun _ => rfl,
    fun _ _ i hi => absurd hi (Finset.notMem_empty i), rfl, Finset.Subset.refl _,
    fun i hi _ => absurd hi (Finset.notMem_empty i), fun _ => rfl, List.Subset.refl _⟩

end RBC.Raw
