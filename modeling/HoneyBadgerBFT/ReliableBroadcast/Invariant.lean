import HoneyBadgerBFT.Library.Drain
import HoneyBadgerBFT.ReliableBroadcast.Party

/-!
# Reliable broadcast: the invariant of one call

* `Tables`     what is in the tables has arrived, each sender is there once, and every message that
               has arrived and passes its check is there;
* `Sends`      what stands behind the messages that the call has sent;
* `Outcome`    what stands behind its status.

`Call S pid nd` puts them together; `Call.recv` and `Call.start` are the step lemmas.
-/

namespace RBC
open Async

variable {C : Committee} (S : Setup C)

abbrev PNode (C : Committee) := Node C.N (Party C.N) Msg

/-- the root of the Merkle tree over a codeword -/
def root (code : List Bytes) : Bytes := (merkleTree S.H code).getD 1 []

/-- the stripe `x` of the party `i` passes the check for the root `h` -/
def Verified (h : Bytes) (br : List Bytes) (x : Bytes) (i : Fin C.N) : Prop :=
  merkleVerify S.H C.N x h br i = some true

instance (h : Bytes) (br : List Bytes) (x : Bytes) (i : Fin C.N) :
    Decidable (Verified S h br x i) := inferInstanceAs (Decidable (_ = _))

/-- `decode_output(h)` returns `m` -/
def Decodes (h : Bytes) (stripes : Fin C.N → Option Bytes) (m : Bytes) : Prop :=
  decode S.zfec stripes = some m ∧ ∃ code, encode S.zfec (.bytes m) = some code ∧ root S code = h

namespace Party

/-- enough messages for `h` to return -/
def Complete (p : Party C.N) (h : Bytes) : Prop :=
  2 * C.f + 1 ≤ (p.ready h).card ∧ C.N - 2 * C.f ≤ p.echoCounter h

end Party
open Party

structure Tables (pid : Fin C.N) (nd : PNode C) : Prop where
  stripe : ∀ h i x, nd.st.stripes h i = some x → ∃ br, (i, .ECHO h br x) ∈ nd.rcvd ∧
    Verified S h br x i ∧ verifyHashed S.H C.N x br i ⊆ nd.st.hashed
  counter : ∀ h, nd.st.echoCounter h = (present (nd.st.stripes h)).card
  stripe_one : ∀ h h' i, nd.st.stripes h i ≠ none → nd.st.stripes h' i ≠ none → h = h'
  echoSenders : ∀ i, i ∈ nd.st.echoSenders ↔ ∃ h, nd.st.stripes h i ≠ none
  ready : ∀ h i, i ∈ nd.st.ready h → (i, .READY h) ∈ nd.rcvd
  ready_one : ∀ h h' i, i ∈ nd.st.ready h → i ∈ nd.st.ready h' → h = h'
  readySenders : ∀ i, i ∈ nd.st.readySenders ↔ ∃ h, i ∈ nd.st.ready h
  val_heard : ∀ h br x, (S.leader, .VAL h br x) ∈ nd.rcvd → Verified S h br x pid →
    nd.st.fromLeader ≠ none
  echo_heard : ∀ i h br x, (i, .ECHO h br x) ∈ nd.rcvd → Verified S h br x i →
    i ∈ nd.st.echoSenders
  ready_heard : ∀ i h, (i, .READY h) ∈ nd.rcvd → i ∈ nd.st.readySenders

structure Sends (pid : Fin C.N) (nd : PNode C) : Prop where
  val : ∀ q h br x, .VAL h br x ∈ nd.st.sent q → pid = S.leader ∧ ∃ m code, nd.st.m = some m ∧
    encode S.zfec m = some code ∧ h = root S code ∧ br = getMerkleBranch q (merkleTree S.H code) ∧
    x = code.getD q []
  val_sent : ∀ m, nd.st.m = some m → ∃ code, encode S.zfec m = some code ∧
    treeHashed S.H code ⊆ nd.st.hashed ∧ ∀ q : Fin C.N,
      .VAL (root S code) (getMerkleBranch q (merkleTree S.H code)) (code.getD q []) ∈ nd.st.sent q
  echo : ∀ q h br x, .ECHO h br x ∈ nd.st.sent q → nd.st.fromLeader = some h ∧
    (S.leader, .VAL h br x) ∈ nd.rcvd ∧ Verified S h br x pid ∧ ∀ q', .ECHO h br x ∈ nd.st.sent q'
  echo_sent : ∀ h, nd.st.fromLeader = some h → ∃ br x, ∀ q, .ECHO h br x ∈ nd.st.sent q
  ready : ∀ q h, .READY h ∈ nd.st.sent q → nd.st.readySent = true ∧
    (C.N - C.f ≤ nd.st.echoCounter h ∨ C.f + 1 ≤ (nd.st.ready h).card) ∧
    ∀ q', .READY h ∈ nd.st.sent q'
  ready_one : ∀ q q' h h', .READY h ∈ nd.st.sent q → .READY h' ∈ nd.st.sent q' → h = h'
  ready_sent : nd.st.readySent = true → ∃ h, ∀ q, .READY h ∈ nd.st.sent q
  echo_threshold : ∀ h, C.N - C.f ≤ nd.st.echoCounter h → nd.st.readySent = true
  ready_threshold : ∀ h, C.f + 1 ≤ (nd.st.ready h).card → nd.st.readySent = true

structure Outcome (pid : Fin C.N) (nd : PNode C) : Prop where
  input : nd.st.status = .input → pid = S.leader ∧ nd.st.m = none
  waiting : nd.st.status = .input ∨ nd.st.status = .running → ∀ h, ¬ nd.st.Complete h
  returned : ∀ m, nd.st.status = .returned m → ∃ h, nd.st.Complete h ∧
    decode S.zfec (nd.st.stripes h) = some m ∧ ∃ code, encode S.zfec (.bytes m) = some code ∧
      root S code = h ∧ treeHashed S.H code ⊆ nd.st.hashed
  raised : nd.st.status = .raised → (pid = S.leader ∧ nd.st.m = none) ∨
    ∃ h, nd.st.Complete h ∧ ∀ m, ¬ Decodes S h (nd.st.stripes h) m

/-- the invariant of a call of `reliablebroadcast` -/
structure Call (pid : Fin C.N) (nd : PNode C) : Prop where
  tables : Tables S pid nd
  sends : Sends S pid nd
  outcome : Outcome S pid nd

/-! ## the end of a call -/

/-- the tables are the same, and the strings that have been hashed are more -/
structure SameTables {n : ℕ} (p p' : Party n) : Prop where
  fromLeader : p'.fromLeader = p.fromLeader
  stripes : p'.stripes = p.stripes
  echoCounter : p'.echoCounter = p.echoCounter
  echoSenders : p'.echoSenders = p.echoSenders
  ready : p'.ready = p.ready
  readySenders : p'.readySenders = p.readySenders
  hashed : p.hashed ⊆ p'.hashed

/-- so are the sent messages: only the status changes -/
structure SameSends {n : ℕ} (p p' : Party n) : Prop extends SameTables p p' where
  m : p'.m = p.m
  readySent : p'.readySent = p.readySent
  sent : p'.sent = p.sent

theorem SameSends.refl {n : ℕ} (p : Party n) : SameSends p p :=
  ⟨⟨rfl, rfl, rfl, rfl, rfl, rfl, List.Subset.refl _⟩, rfl, rfl, rfl⟩

/-- the echo counters and the sets of ready senders have grown, and what has been sent is the same -/
structure Grown {n : ℕ} (p p' : Party n) : Prop where
  m : p'.m = p.m
  fromLeader : p'.fromLeader = p.fromLeader
  readySent : p'.readySent = p.readySent
  sent : p'.sent = p.sent
  hashed : p.hashed ⊆ p'.hashed
  echoCounter : ∀ r, p.echoCounter r ≤ p'.echoCounter r
  ready : ∀ r, (p.ready r).card ≤ (p'.ready r).card

theorem SameSends.grown {n : ℕ} {p p' : Party n} (h : SameSends p p') : Grown p p' :=
  ⟨h.m, h.fromLeader, h.readySent, h.sent, h.hashed, fun _ => by rw [h.echoCounter],
    fun _ => by rw [h.ready]⟩

theorem hash_same {n : ℕ} (xs : List Bytes) (p : Party n) : SameSends p (p.hash xs) :=
  { SameSends.refl p with hashed := List.subset_append_right _ _ }

theorem broadcast_same {n : ℕ} (o : Msg) (p : Party n) : SameTables p (p.broadcast o) :=
  { SameSends.refl p with }

theorem sendReady_same {n : ℕ} (r : Bytes) (p : Party n) : SameTables p (p.sendReady r) :=
  { SameSends.refl p with }

theorem decodeOutput_same (h : Bytes) (p : Party C.N) : SameSends p (p.decodeOutput S h) := by
  unfold decodeOutput
  split
  · exact { SameSends.refl p with }
  · split
    · exact { SameSends.refl p with }
    · dsimp only
      split <;> exact { SameSends.refl p with hashed := List.subset_append_right _ _ }

theorem tryOutput_same (h : Bytes) (p : Party C.N) : SameSends p (p.tryOutput S h) := by
  unfold tryOutput
  split
  · exact decodeOutput_same S h p
  · exact SameSends.refl p

/-- `decode_output` returns or raises -/
theorem decodeOutput_cases (h : Bytes) (p : Party C.N) :
    (∃ m, (p.decodeOutput S h).status = .returned m ∧ decode S.zfec (p.stripes h) = some m ∧
      ∃ code, encode S.zfec (.bytes m) = some code ∧ root S code = h ∧
        treeHashed S.H code ⊆ (p.decodeOutput S h).hashed) ∨
    ((p.decodeOutput S h).status = .raised ∧ ∀ m, ¬ Decodes S h (p.stripes h) m) := by
  unfold decodeOutput
  split
  · next hd =>
    refine .inr ⟨rfl, fun m hm => ?_⟩
    have := hd.symm.trans hm.1
    cases this
  · next m hd =>
    split
    · next he =>
      refine .inr ⟨rfl, fun m' hm => ?_⟩
      obtain ⟨hm, code, hc, -⟩ := hm
      obtain rfl := Option.some.inj (hd.symm.trans hm)
      have := he.symm.trans hc
      cases this
    · next code he =>
      dsimp only
      split
      · next hr => exact .inl ⟨m, rfl, hd, code, he, hr, List.subset_append_left _ _⟩
      · next hr =>
        refine .inr ⟨rfl, fun m' hm => ?_⟩
        obtain ⟨hm, code', hc, hr'⟩ := hm
        obtain rfl := Option.some.inj (hd.symm.trans hm)
        obtain rfl := Option.some.inj (he.symm.trans hc)
        exact hr hr'

/-! ## arrivals: the tables -/

section
variable {S} {pid : Fin C.N} {p p' : Party C.N} {l : List (Fin C.N × Msg)}

theorem Tables.congr (h : Tables S pid ⟨p, l⟩) (hs : SameTables p p') : Tables S pid ⟨p', l⟩ where
  stripe r i x hx := by
    obtain ⟨br, h1, h2, h3⟩ := h.stripe r i x (hs.stripes ▸ hx)
    exact ⟨br, h1, h2, List.Subset.trans h3 hs.hashed⟩
  counter r := by
    show p'.echoCounter r = (present (p'.stripes r)).card
    rw [hs.echoCounter, hs.stripes]
    exact h.counter r
  stripe_one r r' i h1 h2 := h.stripe_one r r' i (hs.stripes ▸ h1) (hs.stripes ▸ h2)
  echoSenders i := by
    show i ∈ p'.echoSenders ↔ ∃ h, p'.stripes h i ≠ none
    rw [hs.echoSenders, hs.stripes]
    exact h.echoSenders i
  ready r i hi := h.ready r i (hs.ready ▸ hi)
  ready_one r r' i h1 h2 := h.ready_one r r' i (hs.ready ▸ h1) (hs.ready ▸ h2)
  readySenders i := by
    show i ∈ p'.readySenders ↔ ∃ h, i ∈ p'.ready h
    rw [hs.readySenders, hs.ready]
    exact h.readySenders i
  val_heard r br x h1 h2 := by
    show p'.fromLeader ≠ none
    rw [hs.fromLeader]
    exact h.val_heard r br x h1 h2
  echo_heard i r br x h1 h2 := by
    show i ∈ p'.echoSenders
    rw [hs.echoSenders]
    exact h.echo_heard i r br x h1 h2
  ready_heard i r h1 := by
    show i ∈ p'.readySenders
    rw [hs.readySenders]
    exact h.ready_heard i r h1

/-- a message that is no news -/
theorem Tables.skip (h : Tables S pid ⟨p, l⟩) {src : Fin C.N} {msg : Msg}
    (hval : ∀ r br x, msg = .VAL r br x → src = S.leader → Verified S r br x pid →
      p.fromLeader ≠ none)
    (hecho : ∀ r br x, msg = .ECHO r br x → Verified S r br x src → src ∈ p.echoSenders)
    (hready : ∀ r, msg = .READY r → src ∈ p.readySenders) : Tables S pid ⟨p, (src, msg) :: l⟩ where
  stripe r i x hx := by
    obtain ⟨br, h1, h2, h3⟩ := h.stripe r i x hx
    exact ⟨br, List.mem_cons_of_mem _ h1, h2, h3⟩
  counter := h.counter
  stripe_one := h.stripe_one
  echoSenders := h.echoSenders
  ready r i hi := List.mem_cons_of_mem _ (h.ready r i hi)
  ready_one := h.ready_one
  readySenders := h.readySenders
  val_heard r br x h1 h2 := by
    rcases List.mem_cons.mp h1 with e | h1
    · obtain ⟨e1, e2⟩ := Prod.mk.inj e
      exact hval r br x e2.symm e1.symm h2
    · exact h.val_heard r br x h1 h2
  echo_heard i r br x h1 h2 := by
    rcases List.mem_cons.mp h1 with e | h1
    · obtain ⟨rfl, e2⟩ := Prod.mk.inj e
      exact hecho r br x e2.symm h2
    · exact h.echo_heard i r br x h1 h2
  ready_heard i r h1 := by
    rcases List.mem_cons.mp h1 with e | h1
    · obtain ⟨rfl, e2⟩ := Prod.mk.inj e
      exact hready r e2.symm
    · exact h.ready_heard i r h1

theorem Tables.setFromLeader (h : Tables S pid ⟨p, l⟩) (r : Bytes) :
    Tables S pid ⟨{ p with fromLeader := some r }, l⟩ :=
  ⟨h.stripe, h.counter, h.stripe_one, h.echoSenders, h.ready, h.ready_one, h.readySenders,
    (fun _ _ _ _ _ h => by cases h), h.echo_heard, h.ready_heard⟩

theorem addEcho_stripes {n : ℕ} (src : Fin n) (r x : Bytes) (p : Party n) (r' : Bytes) (i : Fin n) :
    (p.addEcho src r x).stripes r' i = if r' = r ∧ i = src then some x else p.stripes r' i := by
  unfold addEcho
  dsimp only
  by_cases hr : r' = r
  · subst hr
    by_cases hi : i = src
    · subst hi; simp
    · simp [hi]
  · simp [hr]

theorem addEcho_counter {n : ℕ} (src : Fin n) (r x : Bytes) (p : Party n) (r' : Bytes) :
    (p.addEcho src r x).echoCounter r' =
      if r' = r then p.echoCounter r' + 1 else p.echoCounter r' := by
  unfold addEcho
  dsimp only
  by_cases hr : r' = r
  · subst hr; simp
  · simp [hr]

theorem addReady_ready {n : ℕ} (src : Fin n) (r : Bytes) (p : Party n) (r' : Bytes) :
    (p.addReady src r).ready r' = if r' = r then insert src (p.ready r') else p.ready r' := by
  unfold addReady
  dsimp only
  by_cases hr : r' = r
  · subst hr; simp
  · simp [hr]

/-- the sender of an entry that is new in the table of ECHO messages -/
theorem addEcho_ne_none {n : ℕ} {src : Fin n} {r x : Bytes} {p : Party n}
    (hnone : ∀ r', p.stripes r' src = none) (r' : Bytes) (i : Fin n) :
    (p.addEcho src r x).stripes r' i ≠ none ↔ i = src ∧ r' = r ∨ p.stripes r' i ≠ none := by
  rw [addEcho_stripes]
  by_cases hi : i = src
  · subst hi
    by_cases hr : r' = r <;> simp [hr, hnone]
  · simp [hi]

theorem mem_addReady {n : ℕ} (src : Fin n) (r : Bytes) (p : Party n) (r' : Bytes) (i : Fin n) :
    i ∈ (p.addReady src r).ready r' ↔ i = src ∧ r' = r ∨ i ∈ p.ready r' := by
  rw [addReady_ready]
  by_cases hr : r' = r
  · rw [if_pos hr, Finset.mem_insert]
    simp [hr]
  · rw [if_neg hr]
    simp [hr]

section
variable {n : ℕ} {R : Bytes → Fin n → Prop} {src : Fin n} {r : Bytes}

/-- a new sender has one root, as the others have -/
theorem root_unique_add (hone : ∀ r1 r2 i, R r1 i → R r2 i → r1 = r2) (hnone : ∀ r', ¬ R r' src)
    {r1 r2 : Bytes} {i : Fin n} (h1 : i = src ∧ r1 = r ∨ R r1 i) (h2 : i = src ∧ r2 = r ∨ R r2 i) :
    r1 = r2 := by
  rcases h1 with ⟨rfl, rfl⟩ | h1
  · rcases h2 with ⟨-, rfl⟩ | h2
    · rfl
    · exact absurd h2 (hnone r2)
  · rcases h2 with ⟨rfl, rfl⟩ | h2
    · exact absurd h1 (hnone r1)
    · exact hone r1 r2 i h1 h2

/-- the senders are those with some root -/
theorem mem_insert_iff_exists {A : Finset (Fin n)} (hA : ∀ i, i ∈ A ↔ ∃ r', R r' i) (i : Fin n) :
    i ∈ insert src A ↔ ∃ r', i = src ∧ r' = r ∨ R r' i := by
  rw [Finset.mem_insert, hA i, exists_or]
  simp

end

theorem Tables.addEcho (h : Tables S pid ⟨p, l⟩) {src : Fin C.N} {r : Bytes} {br : List Bytes}
    {x : Bytes} (hnew : src ∉ p.echoSenders) (hv : Verified S r br x src)
    (hh : verifyHashed S.H C.N x br src ⊆ p.hashed) :
    Tables S pid ⟨p.addEcho src r x, (src, .ECHO r br x) :: l⟩ := by
  have hnone : ∀ r', p.stripes r' src = none := by
    intro r'
    by_contra hc
    exact hnew ((h.echoSenders src).mpr ⟨r', hc⟩)
  have hst := addEcho_stripes src r x p
  have hmem := addEcho_ne_none (r := r) (x := x) hnone
  refine
    { stripe := fun r' i y hy => ?_
      counter := fun r' => ?_
      stripe_one := fun r1 r2 i h1 h2 => root_unique_add h.stripe_one
        (fun r' hc => hc (hnone r')) ((hmem r1 i).mp h1) ((hmem r2 i).mp h2)
      echoSenders := fun i => ?_
      ready := fun r' i hi => List.mem_cons_of_mem _ (h.ready r' i hi)
      ready_one := h.ready_one
      readySenders := h.readySenders
      val_heard := fun r' br' y h1 h2 => ?_
      echo_heard := fun i r' br' y h1 h2 => ?_
      ready_heard := fun i r' h1 => ?_ }
  · replace hy : (p.addEcho src r x).stripes r' i = some y := hy
    rw [hst] at hy
    split at hy
    · next hc =>
      obtain ⟨rfl, rfl⟩ := hc
      obtain rfl := Option.some.inj hy
      exact ⟨br, List.mem_cons_self, hv, hh⟩
    · obtain ⟨br', h1, h2, h3⟩ := h.stripe r' i y hy
      exact ⟨br', List.mem_cons_of_mem _ h1, h2, h3⟩
  · show (p.addEcho src r x).echoCounter r' = (present ((p.addEcho src r x).stripes r')).card
    rw [addEcho_counter, h.counter r']
    by_cases hr : r' = r
    · subst hr
      have hins : present ((p.addEcho src r' x).stripes r') = insert src (present (p.stripes r')) := by
        ext i
        simp only [present, Finset.mem_filter, Finset.mem_univ, true_and, Finset.mem_insert, hmem,
          and_true]
      rw [if_pos rfl, hins, Finset.card_insert_of_notMem]
      simp [present, hnone]
    · have hsame : (p.addEcho src r x).stripes r' = p.stripes r' := by
        funext i
        rw [hst, if_neg fun hc => hr hc.1]
      rw [if_neg hr, hsame]
  · exact (mem_insert_iff_exists h.echoSenders i).trans (exists_congr fun r' => (hmem r' i).symm)
  · rcases List.mem_cons.mp h1 with e | h1
    · cases e
    · exact h.val_heard r' br' y h1 h2
  · rcases List.mem_cons.mp h1 with e | h1
    · cases e; exact Finset.mem_insert_self _ _
    · exact Finset.mem_insert_of_mem (h.echo_heard i r' br' y h1 h2)
  · rcases List.mem_cons.mp h1 with e | h1
    · cases e
    · exact h.ready_heard i r' h1

theorem Tables.addReady (h : Tables S pid ⟨p, l⟩) {src : Fin C.N} {r : Bytes}
    (hnew : src ∉ p.readySenders) :
    Tables S pid ⟨p.addReady src r, (src, .READY r) :: l⟩ := by
  have hnone : ∀ r', src ∉ p.ready r' := fun r' hc => hnew ((h.readySenders src).mpr ⟨r', hc⟩)
  have hmem := mem_addReady src r p
  refine
    { stripe := fun r' i y hy => ?_
      counter := h.counter
      stripe_one := h.stripe_one
      echoSenders := h.echoSenders
      ready := fun r' i hi => ?_
      ready_one := fun r1 r2 i h1 h2 =>
        root_unique_add h.ready_one hnone ((hmem r1 i).mp h1) ((hmem r2 i).mp h2)
      readySenders := fun i =>
        (mem_insert_iff_exists h.readySenders i).trans (exists_congr fun r' => (hmem r' i).symm)
      val_heard := fun r' br' y h1 h2 => ?_
      echo_heard := fun i r' br' y h1 h2 => ?_
      ready_heard := fun i r' h1 => ?_ }
  · obtain ⟨br', h1, h2, h3⟩ := h.stripe r' i y hy
    exact ⟨br', List.mem_cons_of_mem _ h1, h2, h3⟩
  · rcases (hmem r' i).mp hi with ⟨rfl, rfl⟩ | hi
    · exact List.mem_cons_self
    · exact List.mem_cons_of_mem _ (h.ready r' i hi)
  · rcases List.mem_cons.mp h1 with e | h1
    · cases e
    · exact h.val_heard r' br' y h1 h2
  · rcases List.mem_cons.mp h1 with e | h1
    · cases e
    · exact h.echo_heard i r' br' y h1 h2
  · rcases List.mem_cons.mp h1 with e | h1
    · cases e; exact Finset.mem_insert_self _ _
    · exact Finset.mem_insert_of_mem (h.ready_heard i r' h1)

/-! ## arrivals: the messages that are sent -/

theorem Sends.grow {l' : List (Fin C.N × Msg)} (h : Sends S pid ⟨p, l⟩) (hg : Grown p p')
    (hl : l ⊆ l') (hthr : ∀ r, C.N - C.f ≤ p'.echoCounter r ∨ C.f + 1 ≤ (p'.ready r).card →
      p'.readySent = true) : Sends S pid ⟨p', l'⟩ where
  val q r br x hm := by
    show pid = S.leader ∧ ∃ m code, p'.m = some m ∧ _
    rw [hg.m]
    exact h.val q r br x (hg.sent ▸ hm)
  val_sent m hm := by
    obtain ⟨code, h1, h2, h3⟩ := h.val_sent m (hg.m.symm.trans hm)
    exact ⟨code, h1, List.Subset.trans h2 hg.hashed, fun q => hg.sent ▸ h3 q⟩
  echo q r br x hm := by
    obtain ⟨h1, h2, h3, h4⟩ := h.echo q r br x (hg.sent ▸ hm)
    exact ⟨hg.fromLeader.trans h1, hl h2, h3, fun q' => hg.sent ▸ h4 q'⟩
  echo_sent r hr := by
    obtain ⟨br, x, h1⟩ := h.echo_sent r (hg.fromLeader.symm.trans hr)
    exact ⟨br, x, fun q => hg.sent ▸ h1 q⟩
  ready q r hm := by
    obtain ⟨h1, h2, h3⟩ := h.ready q r (hg.sent ▸ hm)
    exact ⟨hg.readySent.trans h1, h2.imp (fun h0 => h0.trans (hg.echoCounter r))
      fun h0 => h0.trans (hg.ready r), fun q' => hg.sent ▸ h3 q'⟩
  ready_one q q' r r' h1 h2 := h.ready_one q q' r r' (hg.sent ▸ h1) (hg.sent ▸ h2)
  ready_sent hr := by
    obtain ⟨r, h1⟩ := h.ready_sent (hg.readySent.symm.trans hr)
    exact ⟨r, fun q => hg.sent ▸ h1 q⟩
  echo_threshold r hr := hthr r (.inl hr)
  ready_threshold r hr := hthr r (.inr hr)

theorem Sends.congr {l' : List (Fin C.N × Msg)} (h : Sends S pid ⟨p, l⟩) (hs : SameSends p p')
    (hl : l ⊆ l') : Sends S pid ⟨p', l'⟩ := by
  refine h.grow hs.grown hl fun r hr => hs.readySent.trans ?_
  rw [hs.echoCounter, hs.ready] at hr
  exact hr.elim (h.echo_threshold r) (h.ready_threshold r)

/-- the ECHO message of the call -/
theorem Sends.sendEcho (h : Sends S pid ⟨p, l⟩) (hnone : p.fromLeader = none) {r : Bytes}
    {br : List Bytes} {x : Bytes} (hv : Verified S r br x pid) :
    Sends S pid ⟨{ p with fromLeader := some r }.broadcast (.ECHO r br x),
      (S.leader, .VAL r br x) :: l⟩ := by
  have hold : ∀ {q m}, m ∈ p.sent q → m ∈ Msg.ECHO r br x :: p.sent q :=
    fun hm => List.mem_cons_of_mem _ hm
  have hnew : ∀ {q m}, m ∈ Msg.ECHO r br x :: p.sent q → m = .ECHO r br x ∨ m ∈ p.sent q :=
    fun hm => List.mem_cons.mp hm
  refine
    { val := fun q r' br' x' hm => ?_
      val_sent := fun m hm => ?_
      echo := fun q r' br' x' hm => ?_
      echo_sent := fun r' hr => ?_
      ready := fun q r' hm => ?_
      ready_one := fun q q' r1 r2 h1 h2 => ?_
      ready_sent := fun hr => ?_
      echo_threshold := h.echo_threshold
      ready_threshold := h.ready_threshold }
  · rcases hnew hm with e | hm
    · cases e
    · exact h.val q r' br' x' hm
  · obtain ⟨code, h1, h2, h3⟩ := h.val_sent m hm
    exact ⟨code, h1, h2, fun q => hold (h3 q)⟩
  · rcases hnew hm with e | hm
    · cases e
      exact ⟨rfl, List.mem_cons_self, hv, fun q' => List.mem_cons_self⟩
    · -- an earlier ECHO would have set `fromLeader`
      have := (h.echo q r' br' x' hm).1
      rw [show p.fromLeader = none from hnone] at this
      cases this
  · obtain rfl := Option.some.inj hr
    exact ⟨br, x, fun q => List.mem_cons_self⟩
  · rcases hnew hm with e | hm
    · cases e
    · obtain ⟨h1, h2, h3⟩ := h.ready q r' hm
      exact ⟨h1, h2, fun q' => hold (h3 q')⟩
  · rcases hnew h1 with e | h1
    · cases e
    · rcases hnew h2 with e | h2
      · cases e
      · exact h.ready_one q q' r1 r2 h1 h2
  · obtain ⟨r', h1⟩ := h.ready_sent hr
    exact ⟨r', fun q => hold (h1 q)⟩

/-- the READY message of the call -/
theorem Sends.firstReady {l' : List (Fin C.N × Msg)} (h : Sends S pid ⟨p, l⟩) (hg : Grown p p')
    (hl : l ⊆ l') (hno : p.readySent = false) (r : Bytes)
    (hr : C.N - C.f ≤ p'.echoCounter r ∨ C.f + 1 ≤ (p'.ready r).card) :
    Sends S pid ⟨p'.sendReady r, l'⟩ := by
  have hnot : ∀ q r', .READY r' ∉ p.sent q := by
    intro q r' hmem
    have := (h.ready q r' hmem).1
    rw [show p.readySent = false from hno] at this
    cases this
  have hold : ∀ {q o}, o ∈ p.sent q → o ∈ Msg.READY r :: p'.sent q :=
    fun ho => List.mem_cons_of_mem _ (hg.sent ▸ ho)
  have hnew : ∀ {q o}, o ∈ Msg.READY r :: p'.sent q → o = .READY r ∨ o ∈ p.sent q :=
    fun ho => hg.sent ▸ List.mem_cons.mp ho
  refine
    { val := fun q r' br x ho => ?_
      val_sent := fun m ho => ?_
      echo := fun q r' br x ho => ?_
      echo_sent := fun r' hr => ?_
      ready := fun q r' ho => ?_
      ready_one := fun q q' r1 r2 h1 h2 => ?_
      ready_sent := fun _ => ⟨r, fun q => List.mem_cons_self⟩
      echo_threshold := fun _ _ => rfl
      ready_threshold := fun _ _ => rfl }
  · rcases hnew ho with e | ho
    · cases e
    · show pid = S.leader ∧ ∃ m code, p'.m = some m ∧ _
      rw [hg.m]
      exact h.val q r' br x ho
  · obtain ⟨code, h1, h2, h3⟩ := h.val_sent m (hg.m.symm.trans ho)
    exact ⟨code, h1, List.Subset.trans h2 hg.hashed, fun q => hold (h3 q)⟩
  · rcases hnew ho with e | ho
    · cases e
    · obtain ⟨h1, h2, h3, h4⟩ := h.echo q r' br x ho
      exact ⟨hg.fromLeader.trans h1, hl h2, h3, fun q' => hold (h4 q')⟩
  · obtain ⟨br, x, h1⟩ := h.echo_sent r' (hg.fromLeader.symm.trans hr)
    exact ⟨br, x, fun q => hold (h1 q)⟩
  · rcases hnew ho with e | ho
    · cases e
      exact ⟨rfl, hr, fun q' => List.mem_cons_self⟩
    · exact absurd ho (hnot q r')
  · rcases hnew h1 with e1 | h1
    · rcases hnew h2 with e2 | h2
      · cases e1; cases e2; rfl
      · exact absurd h2 (hnot q' r2)
    · exact absurd h1 (hnot q r1)

/-- the tables have grown, and READY is sent for `r` if the test `c` says so -/
theorem Sends.sendReady {l' : List (Fin C.N × Msg)} (h : Sends S pid ⟨p, l⟩) (hg : Grown p p')
    (hl : l ⊆ l') (r : Bytes) {c : Prop} [Decidable c]
    (hc : c → C.N - C.f ≤ p'.echoCounter r ∨ C.f + 1 ≤ (p'.ready r).card)
    (hthr : ∀ r', C.N - C.f ≤ p'.echoCounter r' ∨ C.f + 1 ≤ (p'.ready r').card →
      p.readySent = true ∨ c) :
    Sends S pid ⟨if c ∧ p'.readySent = false then p'.sendReady r else p', l'⟩ := by
  by_cases hgo : c ∧ p'.readySent = false
  · rw [if_pos hgo]
    exact h.firstReady hg hl (hg.readySent.symm.trans hgo.2) r (hc hgo.1)
  · rw [if_neg hgo]
    refine h.grow hg hl fun r' hr' => ?_
    rcases hthr r' hr' with h1 | h1
    · exact hg.readySent.trans h1
    · by_contra hne
      exact hgo ⟨h1, Bool.eq_false_iff.mpr hne⟩

/-! ## arrivals: the outcome -/

/-- the call goes on -/
theorem Outcome.goOn {l' : List (Fin C.N × Msg)} (h : Outcome S pid ⟨p, l⟩)
    (hrun : p.status = .running) (hst : p'.status = p.status)
    (hc : ∀ r, p'.Complete r → p.Complete r) : Outcome S pid ⟨p', l'⟩ := by
  have hrun' : p'.status = .running := hst.trans hrun
  refine ⟨fun e => ?_, fun _ r hr => h.waiting (.inr hrun) r (hc r hr), fun m e => ?_, fun e => ?_⟩
  · have := hrun'.symm.trans e; cases this
  · have := hrun'.symm.trans e; cases this
  · have := hrun'.symm.trans e; cases this

/-- the test after a change for the root `r` -/
theorem Outcome.tryOutput (hrun : p.status = .running) {r : Bytes}
    (hother : ∀ r', r' ≠ r → ¬ p.Complete r') : Outcome S pid ⟨p.tryOutput S r, l⟩ := by
  have hsame := decodeOutput_same S r p
  have hcomp : p.Complete r → (p.decodeOutput S r).Complete r := by
    unfold Complete
    rw [hsame.ready, hsame.echoCounter]
    exact id
  unfold Party.tryOutput
  by_cases hc : 2 * C.f + 1 ≤ (p.ready r).card ∧ C.N - 2 * C.f ≤ p.echoCounter r
  · rw [if_pos hc]
    rcases decodeOutput_cases S r p with ⟨m, hst, hd, hcode⟩ | ⟨hst, hno⟩
    · refine ⟨fun e => ?_, fun e => ?_, fun m' e => ?_, fun e => ?_⟩
      · have := hst.symm.trans e; cases this
      · rcases e with e | e <;> have := hst.symm.trans e <;> cases this
      · have e' := hst.symm.trans e
        cases e'
        refine ⟨r, hcomp hc, ?_, hcode⟩
        show decode S.zfec ((p.decodeOutput S r).stripes r) = _
        rw [hsame.stripes]
        exact hd
      · have := hst.symm.trans e; cases this
    · refine ⟨fun e => ?_, fun e => ?_, fun m e => ?_, fun _ => .inr ⟨r, hcomp hc, ?_⟩⟩
      · have := hst.symm.trans e; cases this
      · rcases e with e | e <;> have := hst.symm.trans e <;> cases this
      · have := hst.symm.trans e; cases this
      · show ∀ m, ¬ Decodes S r ((p.decodeOutput S r).stripes r) m
        rw [hsame.stripes]
        exact hno
  · rw [if_neg hc]
    refine ⟨fun e => ?_, fun _ r' => ?_, fun m e => ?_, fun e => ?_⟩
    · have := hrun.symm.trans e; cases this
    · by_cases hr : r' = r
      · rw [hr]; exact hc
      · exact hother r' hr
    · have := hrun.symm.trans e; cases this
    · have := hrun.symm.trans e; cases this

/-! ## the step lemmas -/

/-- a message that is no news -/
theorem Call.skip (h : Call S pid ⟨p, l⟩) (hrun : p.status = .running) (hs : SameSends p p')
    (hst : p'.status = p.status) {src : Fin C.N} {msg : Msg}
    (hval : ∀ r br x, msg = .VAL r br x → src = S.leader → Verified S r br x pid →
      p'.fromLeader ≠ none)
    (hecho : ∀ r br x, msg = .ECHO r br x → Verified S r br x src → src ∈ p'.echoSenders)
    (hready : ∀ r, msg = .READY r → src ∈ p'.readySenders) :
    Call S pid ⟨p', (src, msg) :: l⟩ := by
  refine ⟨(h.tables.congr hs.toSameTables).skip hval hecho hready,
    h.sends.congr hs (List.subset_cons_self _ _), h.outcome.goOn hrun hst ?_⟩
  unfold Complete
  rw [hs.ready, hs.echoCounter]
  exact fun _ => id

/-- a message for the root `r` that has got in: READY may be sent, and the call may return -/
theorem Call.take (h : Call S pid ⟨p, l⟩) (hrun : p.status = .running) (hg : Grown p p')
    (hst : p'.status = p.status) {l' : List (Fin C.N × Msg)} (hl : l ⊆ l')
    (htab : Tables S pid ⟨p', l'⟩) (r : Bytes) {c : Prop} [Decidable c]
    (hc : c → C.N - C.f ≤ p'.echoCounter r ∨ C.f + 1 ≤ (p'.ready r).card)
    (hthr : ∀ r', C.N - C.f ≤ p'.echoCounter r' ∨ C.f + 1 ≤ (p'.ready r').card →
      p.readySent = true ∨ c)
    (hother : ∀ r', r' ≠ r → p'.Complete r' → p.Complete r') :
    Call S pid
      ⟨(if c ∧ p'.readySent = false then p'.sendReady r else p').tryOutput S r, l'⟩ := by
  have hsend := h.sends.sendReady hg hl r hc hthr
  refine ⟨Tables.congr (Tables.congr htab ?_) (tryOutput_same S r _).toSameTables,
    hsend.congr (tryOutput_same S r _) (List.Subset.refl _), Outcome.tryOutput ?_ fun r' hr' hcom => ?_⟩
  · split
    · exact sendReady_same r _
    · exact (SameSends.refl _).toSameTables
  · split <;> exact hst.trans hrun
  · refine h.outcome.waiting (.inr hrun) r' (hother r' hr' ?_)
    split at hcom <;> exact hcom

theorem Call.recvVal (h : Call S pid ⟨p, l⟩) (hrun : p.status = .running) (src : Fin C.N)
    (r : Bytes) (br : List Bytes) (x : Bytes) :
    Call S pid ⟨p.recvVal S pid src r br x, (src, .VAL r br x) :: l⟩ := by
  have hskip : ∀ {p' : Party C.N}, SameSends p p' → p'.status = p.status →
      (src = S.leader → Verified S r br x pid → p'.fromLeader ≠ none) →
      Call S pid ⟨p', (src, .VAL r br x) :: l⟩ := by
    intro p' hs hst hv
    refine h.skip hrun hs hst ?_ ?_ ?_
    · intro r' br' x' e h1 h2
      cases e
      exact hv h1 h2
    · intro r' br' x' e; cases e
    · intro r' e; cases e
  unfold Party.recvVal
  by_cases hfl : p.fromLeader = none
  · rw [if_neg (not_not.mpr hfl)]
    by_cases hsrc : src = S.leader
    · rw [if_neg (not_not.mpr hsrc)]
      dsimp only
      split
      · next hv =>
        have hs := hash_same (verifyHashed S.H C.N x br pid) p
        subst hsrc
        refine ⟨?_, ?_, h.outcome.goOn hrun rfl fun _ => id⟩
        · have htab := (h.tables.congr hs.toSameTables).setFromLeader r
          refine (htab.congr (broadcast_same (.ECHO r br x) _)).skip ?_ ?_ ?_
          · intro _ _ _ _ _ _; exact fun h => by cases h
          · intro r' br' x' e; cases e
          · intro r' e; cases e
        · exact (h.sends.congr hs (List.Subset.refl _)).sendEcho hfl hv
      · next hv => exact hskip (hash_same _ p) rfl fun _ hv' => absurd hv' hv
    · rw [if_pos hsrc]
      exact hskip (SameSends.refl p) rfl fun e => absurd e hsrc
  · rw [if_pos hfl]
    exact hskip (SameSends.refl p) rfl fun _ _ => hfl

theorem Call.recvEcho (h : Call S pid ⟨p, l⟩) (hrun : p.status = .running) (src : Fin C.N)
    (r : Bytes) (br : List Bytes) (x : Bytes) :
    Call S pid ⟨p.recvEcho S src r br x, (src, .ECHO r br x) :: l⟩ := by
  have hskip : ∀ {p' : Party C.N}, SameSends p p' → p'.status = p.status →
      (Verified S r br x src → src ∈ p'.echoSenders) →
      Call S pid ⟨p', (src, .ECHO r br x) :: l⟩ := by
    intro p' hs hst hv
    refine h.skip hrun hs hst ?_ ?_ ?_
    · intro r' br' x' e; cases e
    · intro r' br' x' e h1
      cases e
      exact hv h1
    · intro r' e; cases e
  unfold Party.recvEcho
  by_cases hred : p.stripes r src ≠ none ∨ src ∈ p.echoSenders
  · rw [if_pos hred]
    refine hskip (SameSends.refl p) rfl fun _ => ?_
    rcases hred with h0 | h0
    · exact (h.tables.echoSenders src).mpr ⟨r, h0⟩
    · exact h0
  · rw [if_neg hred]
    dsimp only
    have hs := hash_same (verifyHashed S.H C.N x br src) p
    split
    · next hv =>
      have htab := (h.tables.congr hs.toSameTables).addEcho (fun hc => hred (.inr hc)) hv
        (List.subset_append_left _ _)
      have hg : Grown p ((p.hash (verifyHashed S.H C.N x br src)).addEcho src r x) := by
        refine { hs.grown with echoCounter := fun r' => ?_ }
        rw [addEcho_counter]
        split
        · exact Nat.le_succ _
        · exact le_refl _
      refine h.take hrun hg rfl (List.subset_cons_self _ _) htab r .inl (fun r' h0 => ?_)
        fun r' hr' hcom => ?_
      · rcases h0 with h0 | h0
        · by_cases hr : r' = r
          · exact .inr (hr ▸ h0)
          · rw [addEcho_counter, if_neg hr] at h0
            exact .inl (h.sends.echo_threshold r' h0)
        · exact .inl (h.sends.ready_threshold r' h0)
      · unfold Complete at hcom ⊢
        rw [addEcho_counter, if_neg hr'] at hcom
        exact hcom
    · next hv => exact hskip hs rfl fun hv' => absurd hv' hv

theorem Call.recvReady (h : Call S pid ⟨p, l⟩) (hrun : p.status = .running) (src : Fin C.N)
    (r : Bytes) : Call S pid ⟨p.recvReady S src r, (src, .READY r) :: l⟩ := by
  unfold Party.recvReady
  by_cases hred : src ∈ p.ready r ∨ src ∈ p.readySenders
  · rw [if_pos hred]
    refine h.skip hrun (SameSends.refl p) rfl ?_ ?_ ?_
    · intro r' br' x' e; cases e
    · intro r' br' x' e; cases e
    · intro r' e
      cases e
      rcases hred with h0 | h0
      · exact (h.tables.readySenders src).mpr ⟨r, h0⟩
      · exact h0
  · rw [if_neg hred]
    dsimp only
    have htab := h.tables.addReady (r := r) fun hc => hred (.inr hc)
    have hg : Grown p (p.addReady src r) := by
      refine { (SameSends.refl p).grown with ready := fun r' => ?_ }
      rw [addReady_ready]
      split
      · exact Finset.card_le_card (Finset.subset_insert _ _)
      · exact le_refl _
    refine h.take hrun hg rfl (List.subset_cons_self _ _) htab r .inr (fun r' h0 => ?_)
      fun r' hr' hcom => ?_
    · rcases h0 with h0 | h0
      · exact .inl (h.sends.echo_threshold r' h0)
      · by_cases hr : r' = r
        · exact .inr (hr ▸ h0)
        · rw [addReady_ready, if_neg hr] at h0
          exact .inl (h.sends.ready_threshold r' h0)
    · unfold Complete at hcom ⊢
      rw [addReady_ready, if_neg hr'] at hcom
      exact hcom

/-- **step lemma, arrivals** -/
theorem Call.recv (h : Call S pid ⟨p, l⟩) (hrun : p.status = .running) (src : Fin C.N) (m : Msg) :
    Call S pid ⟨p.recv S pid src m, (src, m) :: l⟩ := by
  cases m with
  | VAL r br x => exact h.recvVal hrun src r br x
  | ECHO r br x => exact h.recvEcho hrun src r br x
  | READY r => exact h.recvReady hrun src r

/-! ## the leader's input -/

theorem Call.init : Call S pid ⟨Party.init (if pid = S.leader then .input else .running), []⟩ where
  tables :=
    { stripe := fun _ _ _ h => by cases h
      counter := fun h => by simp [Party.init, present]
      stripe_one := fun _ _ _ h => absurd rfl h
      echoSenders := fun i => by simp [Party.init]
      ready := fun h i hi => absurd hi (Finset.notMem_empty i)
      ready_one := fun _ _ i hi => absurd hi (Finset.notMem_empty i)
      readySenders := fun i => by simp [Party.init]
      val_heard := fun _ _ _ h => by cases h
      echo_heard := fun _ _ _ _ h => by cases h
      ready_heard := fun _ _ h => by cases h }
  sends :=
    { val := fun _ _ _ _ h => by cases h
      val_sent := fun _ h => by cases h
      echo := fun _ _ _ _ h => by cases h
      echo_sent := fun _ h => by cases h
      ready := fun _ _ h => by cases h
      ready_one := fun _ _ _ _ h => by cases h
      ready_sent := fun h => by cases h
      echo_threshold := fun h hc => by
        have := C.resilient
        replace hc : C.N - C.f ≤ 0 := hc
        omega
      ready_threshold := fun h hc => by
        replace hc : C.f + 1 ≤ 0 := hc
        omega }
  outcome :=
    { input := fun h => by
        by_cases hp : pid = S.leader
        · exact ⟨hp, rfl⟩
        · rw [if_neg hp] at h
          cases h
      waiting := fun _ h hc => by
        have h1 : 2 * C.f + 1 ≤ 0 := hc.1
        omega
      returned := fun m h => by
        split at h <;> cases h
      raised := fun h => by
        split at h <;> cases h }

/-- **step lemma, the input** -/
theorem Call.start (h : Call S pid ⟨p, l⟩) (hin : p.status = .input) (m : Text) :
    Call S pid ⟨p.start S m, l⟩ := by
  obtain ⟨hlead, hm⟩ := h.outcome.input hin
  unfold Party.start
  split
  · have hs : SameSends p { p with status := .raised } := { SameSends.refl p with }
    exact ⟨h.tables.congr hs.toSameTables, h.sends.congr hs (List.Subset.refl _),
      (fun h => by cases h), (by rintro (e | e) <;> cases e), (fun _ h => by cases h),
      fun _ => .inl ⟨hlead, hm⟩⟩
  · next code hcode =>
    have hs := hash_same (treeHashed S.H code) p
    have hold : ∀ {q : Fin C.N} {o}, o ∈ p.sent q →
        o ∈ .VAL (root S code) (getMerkleBranch q (merkleTree S.H code)) (code.getD q []) ::
          p.sent q := fun ho => List.mem_cons_of_mem _ ho
    have hnoval : ∀ q r br x, .VAL r br x ∉ p.sent q := by
      intro q r br x ho
      obtain ⟨-, m', -, hm', -⟩ := h.sends.val q r br x ho
      have := hm.symm.trans hm'
      cases this
    refine ⟨(h.tables.congr hs.toSameTables).congr ⟨rfl, rfl, rfl, rfl, rfl, rfl, List.Subset.refl _⟩,
      ?_, (fun h => by cases h), fun _ r hc => ?_, (fun _ h => by cases h), (fun h => by cases h)⟩
    · refine
        { val := fun q r br x ho => ?_
          val_sent := fun m' hm' => ?_
          echo := fun q r br x ho => ?_
          echo_sent := fun r hr => ?_
          ready := fun q r ho => ?_
          ready_one := fun q q' r r' h1 h2 => ?_
          ready_sent := fun hr => ?_
          echo_threshold := h.sends.echo_threshold
          ready_threshold := h.sends.ready_threshold }
      · rcases List.mem_cons.mp ho with e | ho
        · cases e
          exact ⟨hlead, m, code, rfl, hcode, rfl, rfl, rfl⟩
        · exact absurd ho (hnoval q r br x)
      · obtain rfl := Option.some.inj hm'
        exact ⟨code, hcode, List.subset_append_left _ _, fun q => List.mem_cons_self⟩
      · rcases List.mem_cons.mp ho with e | ho
        · cases e
        · obtain ⟨h1, h2, h3, h4⟩ := h.sends.echo q r br x ho
          exact ⟨h1, h2, h3, fun q' => hold (h4 q')⟩
      · obtain ⟨br, x, h1⟩ := h.sends.echo_sent r hr
        exact ⟨br, x, fun q => hold (h1 q)⟩
      · rcases List.mem_cons.mp ho with e | ho
        · cases e
        · obtain ⟨h1, h2, h3⟩ := h.sends.ready q r ho
          exact ⟨h1, h2, fun q' => hold (h3 q')⟩
      · rcases List.mem_cons.mp h1 with e | h1
        · cases e
        · rcases List.mem_cons.mp h2 with e | h2
          · cases e
          · exact h.sends.ready_one q q' r r' h1 h2
      · obtain ⟨r, h1⟩ := h.sends.ready_sent hr
        exact ⟨r, fun q => hold (h1 q)⟩
    · exact h.outcome.waiting (.inl hin) r hc

/-! ## runs -/

theorem recv_sent (pid src : Fin C.N) (m : Msg) (p : Party C.N) (q : Fin C.N) :
    p.sent q <:+ (p.recv S pid src m).sent q := by
  cases m with
  | VAL r br x =>
    show _ <:+ (p.recvVal S pid src r br x).sent q
    unfold Party.recvVal
    split
    · exact List.suffix_refl _
    · split
      · exact List.suffix_refl _
      · dsimp only
        split
        · exact List.suffix_cons _ _
        · exact List.suffix_refl _
  | ECHO r br x =>
    show _ <:+ (p.recvEcho S src r br x).sent q
    unfold Party.recvEcho
    split
    · exact List.suffix_refl _
    · dsimp only
      split
      · rw [(tryOutput_same S r _).sent]
        split
        · exact List.suffix_cons _ _
        · exact List.suffix_refl _
      · exact List.suffix_refl _
  | READY r =>
    show _ <:+ (p.recvReady S src r).sent q
    unfold Party.recvReady
    split
    · exact List.suffix_refl _
    · dsimp only
      rw [(tryOutput_same S r _).sent]
      split
      · exact List.suffix_cons _ _
      · exact List.suffix_refl _

theorem act_cases {m : Text} (h : p.act S m = some p') : p.status = .input ∧ p' = p.start S m := by
  unfold act at h
  split at h
  · next hst => exact ⟨hst, (Option.some.inj h).symm⟩
  · cases h

theorem act_sent {m : Text} (h : p.act S m = some p') (q : Fin C.N) : p.sent q <:+ p'.sent q := by
  obtain ⟨-, rfl⟩ := act_cases h
  unfold Party.start
  split
  · exact List.suffix_refl _
  · exact List.suffix_cons _ _

/-- no string that has been hashed is forgotten -/
theorem recv_hashed (pid src : Fin C.N) (m : Msg) (p : Party C.N) :
    p.hashed ⊆ (p.recv S pid src m).hashed := by
  cases m with
  | VAL r br x =>
    show _ ⊆ (p.recvVal S pid src r br x).hashed
    unfold Party.recvVal
    split
    · exact List.Subset.refl _
    · split
      · exact List.Subset.refl _
      · dsimp only
        split <;> exact List.subset_append_right _ _
  | ECHO r br x =>
    show _ ⊆ (p.recvEcho S src r br x).hashed
    unfold Party.recvEcho
    split
    · exact List.Subset.refl _
    · dsimp only
      split
      · refine List.Subset.trans ?_ (tryOutput_same S r _).hashed
        split <;> exact List.subset_append_right _ _
      · exact List.subset_append_right _ _
  | READY r =>
    show _ ⊆ (p.recvReady S src r).hashed
    unfold Party.recvReady
    split
    · exact List.Subset.refl _
    · dsimp only
      refine List.Subset.trans ?_ (tryOutput_same S r _).hashed
      split <;> exact List.Subset.refl _

theorem act_hashed {m : Text} (h : p.act S m = some p') : p.hashed ⊆ p'.hashed := by
  obtain ⟨-, rfl⟩ := act_cases h
  unfold Party.start
  split
  · exact List.Subset.refl _
  · exact List.subset_append_right _ _

theorem grows : (protocol S).Grows :=
  ⟨fun _ _ _ _ _ => recv_sent _ _ _ _ _, fun _ _ _ _ _ h => act_sent h _⟩

theorem monotone : (protocol S).Monotone := grows.monotone

end

/-- reachable states: a Byzantine party may send any message -/
abbrev Reached (s : Net C.N (Party C.N) Msg) : Prop :=
  (protocol S).Reachable (fun _ => true) (fun _ _ => True) s

theorem reached_call {s : Net C.N (Party C.N) Msg} (h : Reached S s) :
    ∀ p, C.Honest p → Call S p (s p) := by
  refine node_invariant (fun p nd => Call S p nd) (fun _ _ => Call.init) ?_ ?_ h
  · intro p src m nd _ hnd hl
    exact hnd.recv (of_decide_eq_true hl) src m
  · intro p m nd x _ hnd hx
    obtain ⟨hin, rfl⟩ := act_cases hx
    exact hnd.start hin m

end RBC
