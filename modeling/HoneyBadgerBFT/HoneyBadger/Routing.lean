import HoneyBadgerBFT.HoneyBadger.Buffer

/-!
# HoneyBadgerBFT: the routing of messages

A message passes two loops: `_recv` puts it into the queue of its round, and the
`broadcast_receiver_loop` of the round into the queue of its instance.  `Routed p` says that nothing
is lost or doubled between them: an instance gets what `broadcast_receiver` puts there (`placed`).
`due p.trace r i` is what the instance `i` of the round `r` is to get: the messages for it up to the
first one with an unknown tag or an index out of range.  Two guards end a loop: an unknown tag that of
its round, and a negative round `_recv`.
-/

namespace HoneyBadger
open Trans Party

variable {N : ℕ} {M : Type} {B : ℕ} {p p' : Party N M} {a : Act N M}
  {ok : Party N M → Act N M → Prop}

/-- the sub-protocols of a round -/
inductive Instance (N : ℕ) where
  | ACS_COIN (j : Fin N)
  | ACS_ABA (j : Fin N)
  | ACS_RBC (j : Fin N)
  | TPKE
deriving DecidableEq

/-- the queue of an instance -/
def BroadcastReceiverQueues.of (q : BroadcastReceiverQueues N M) : Instance N → Queue N M
  | .ACS_COIN j => q.ACS_COIN j
  | .ACS_ABA j => q.ACS_ABA j
  | .ACS_RBC j => q.ACS_RBC j
  | .TPKE => q.TPKE

/-- the party with the number `j` -/
def inRange (N : ℕ) (j : ℤ) : Option (Fin N) :=
  if h : 0 ≤ j ∧ j.toNat < N then some ⟨j.toNat, h.2⟩ else none

/-- the instance that a message is for -/
def Packet.dest (N : ℕ) (x : Packet M) : Option (Instance N) :=
  match x.tag with
  | .ACS_COIN => (inRange N x.j).map .ACS_COIN
  | .ACS_ABA => (inRange N x.j).map .ACS_ABA
  | .ACS_RBC => (inRange N x.j).map .ACS_RBC
  | .TPKE => some .TPKE
  | .other _ => none

def Packet.known (x : Packet M) : Bool :=
  match x.tag with
  | .other _ => false
  | _ => true

/-- the messages that have come for the round `r`, in the order of their arrival -/
def arrivals (l : List (Act N M)) (r : ℤ) : Queue N (Packet M) :=
  l.filterMap fun a =>
    match a with
    | .receive sender r' x => if r' = r then some (sender, x) else none
    | _ => none

/-- what a message is to the instance `i` -/
def share (i : Instance N) (y : Fin N × Packet M) : Option (Fin N × M) :=
  if y.2.dest N = some i then some (y.1, y.2.msg) else none

/-- what the instance `i` of the round `r` is to get -/
def due (l : List (Act N M)) (r : ℤ) (i : Instance N) : Queue N M :=
  ((arrivals l r).takeWhile fun y => (y.2.dest N).isSome).filterMap (share i)

/-- the messages up to the first one with an unknown tag -/
def upToUnknown (q : Queue N (Packet M)) : Queue N (Packet M) := q.takeWhile fun y => y.2.known

/-- a message with one of the four tags has the index of an instance -/
def Indexed (N : ℕ) (x : Packet M) : Prop := x.known = true → x.dest N ≠ none

/-- of the messages for the round `r` before the first unknown tag, none has an index out of range -/
def Clean (l : List (Act N M)) (r : ℤ) : Prop := ∀ y ∈ upToUnknown (arrivals l r), Indexed N y.2

/-- all messages that arrive have the index of an instance -/
def AllIndexed (_ : Party N M) : Act N M → Prop
  | .receive _ _ x => Indexed N x
  | _ => True

/-- the instance to whose queue a packet goes -/
def Packet.place (N : ℕ) (x : Packet M) : Option (Instance N) :=
  match x.tag with
  | .ACS_COIN => (index N x.j).map .ACS_COIN
  | .ACS_ABA => (index N x.j).map .ACS_ABA
  | .ACS_RBC => (index N x.j).map .ACS_RBC
  | .TPKE => some .TPKE
  | .other _ => none

/-- what a packet is to the instance `i` -/
def pickFor (i : Instance N) (y : Fin N × Packet M) : Option (Fin N × M) :=
  if y.2.place N = some i then some (y.1, y.2.msg) else none

/-- the messages up to the first one that goes nowhere -/
def upToRefused (q : Queue N (Packet M)) : Queue N (Packet M) :=
  q.takeWhile fun y => (y.2.place N).isSome

/-- what `broadcast_receiver` puts into the queue of the instance `i`, of the messages `q` -/
def placed (q : Queue N (Packet M)) (i : Instance N) : Queue N M :=
  (upToRefused q).filterMap (pickFor i)

/-- the exception of a packet that goes nowhere -/
def Packet.error (x : Packet M) : Loop :=
  if x.known = true then .indexError else .unknownTagError

/-- the messages of the round that its loop has not taken yet -/
def Party.waiting (p : Party N M) (r : ℤ) : Queue N (Packet M) := (p.perRoundRecv r).getD []

/-- the loop of the round `r` takes `k` messages, as long as it can -/
def Party.drain (r : ℤ) : ℕ → Party N M → Party N M
  | 0, p => p
  | k + 1, p =>
    match p.route r with
    | none => p
    | some p' => drain r k p'

/-! ## one message -/

theorem index_of_inRange {j : ℤ} {k : Fin N} (h : inRange N j = some k) : index N j = some k := by
  unfold inRange at h
  unfold index
  split at h
  · next hj =>
    rw [dif_pos ⟨hj.1, by omega⟩]
    exact h
  · cases h

theorem update_append {k k' : Fin N} {x : Fin N × M} {q : Fin N → Queue N M} :
    Function.update q k (q k ++ [x]) k' = q k' ++ if k = k' then [x] else [] := by
  by_cases hk : k = k'
  · subst hk
    rw [Function.update_self, if_pos rfl]
  · rw [Function.update_of_ne fun h => hk h.symm, if_neg hk, List.append_nil]

theorem known_of_place {x : Packet M} (h : x.place N ≠ none) : x.known = true := by
  unfold Packet.place at h
  unfold Packet.known
  cases ht : x.tag with
  | other v =>
    rw [ht] at h
    exact absurd rfl h
  | _ => rfl

/-- an index in range is where Python looks -/
theorem place_of_dest {x : Packet M} {i : Instance N} (h : x.dest N = some i) :
    x.place N = some i := by
  unfold Packet.dest at h
  unfold Packet.place
  cases ht : x.tag <;> rw [ht] at h <;> dsimp only at h ⊢
  case TPKE => exact h
  case other v => cases h
  all_goals
    obtain ⟨k, hk, rfl⟩ := Option.map_eq_some_iff.mp h
    rw [index_of_inRange hk, Option.map_some]

/-- a packet that goes nowhere ends the loop -/
theorem broadcastReceiver_refused {sender : Fin N} {x : Packet M} {q : BroadcastReceiverQueues N M}
    (h : x.place N = none) : broadcastReceiver sender x q = .inr x.error := by
  unfold Packet.place at h
  unfold broadcastReceiver Packet.error Packet.known
  cases ht : x.tag <;> rw [ht] at h <;> dsimp only at h ⊢
  case TPKE => cases h
  case other v => rfl
  all_goals
    rw [putAt, Option.map_eq_none_iff.mp h]
    rfl

/-- any other one is put -/
theorem exists_receiver (sender : Fin N) {x : Packet M} (q : BroadcastReceiverQueues N M)
    (h : x.place N ≠ none) : ∃ q', broadcastReceiver sender x q = .inl q' := by
  unfold Packet.place at h
  unfold broadcastReceiver
  cases ht : x.tag <;> rw [ht] at h <;> dsimp only at h ⊢
  case TPKE => exact ⟨_, rfl⟩
  case other v => exact absurd rfl h
  all_goals
    obtain ⟨d, hd⟩ := Option.ne_none_iff_exists'.mp h
    obtain ⟨k, hk, -⟩ := Option.map_eq_some_iff.mp hd
    rw [putAt, hk]
    exact ⟨_, rfl⟩

/-- **a message goes to its instance and to no other one** -/
theorem broadcastReceiver_place {sender : Fin N} {x : Packet M} {q q' : BroadcastReceiverQueues N M}
    (h : broadcastReceiver sender x q = .inl q') (i : Instance N) :
    q'.of i = q.of i ++ (pickFor i (sender, x)).toList := by
  have hput : ∀ d, x.place N = some d →
      (pickFor i (sender, x)).toList = if d = i then [(sender, x.msg)] else [] := by
    intro d hd
    unfold pickFor
    rw [hd]
    by_cases hi : d = i
    · rw [if_pos hi, if_pos (congrArg some hi)]
      rfl
    · rw [if_neg hi, if_neg fun e => hi (Option.some.inj e)]
      rfl
  unfold broadcastReceiver at h
  unfold Packet.place at hput
  cases ht : x.tag with
  | other v =>
    rw [ht] at h
    cases h
  | TPKE =>
    simp only [ht] at h hput
    obtain rfl := Sum.inl.inj h
    rw [hput _ rfl]
    cases i <;> simp [BroadcastReceiverQueues.of]
  | ACS_COIN | ACS_ABA | ACS_RBC =>
    simp only [ht] at h hput
    cases hk : index N x.j with
    | none => simp [putAt, hk] at h
    | some k =>
      simp only [putAt, hk, Option.map_some, Sum.inl.injEq] at h
      subst h
      rw [hput _ (by rw [hk]; rfl)]
      cases i <;> simp [BroadcastReceiverQueues.of, update_append]

/-! ## what is due is put -/

/-- what is due is put first -/
theorem due_prefix_placed (l : List (Act N M)) (r : ℤ) (i : Instance N) :
    due l r i <+: placed (arrivals l r) i := by
  unfold due placed upToRefused
  induction arrivals l r with
  | nil => exact List.prefix_rfl
  | cons y q ih =>
    cases hd : y.2.dest N with
    | none =>
      rw [List.takeWhile_cons_of_neg (by rw [hd]; exact Bool.false_ne_true)]
      exact List.nil_prefix
    | some d =>
      have hp := place_of_dest hd
      have hsame : share i y = pickFor i y := by
        unfold share pickFor
        rw [hd, hp]
      rw [List.takeWhile_cons_of_pos (by rw [hd]; rfl), List.takeWhile_cons_of_pos (by rw [hp]; rfl),
        List.filterMap_cons, List.filterMap_cons, hsame]
      cases pickFor i y with
      | none => exact ih
      | some z => exact List.prefix_cons_inj z |>.mpr ih

/-- and nothing else is, if no index is out of range -/
theorem placed_eq_due {l : List (Act N M)} {r : ℤ} (h : Clean l r) (i : Instance N) :
    placed (arrivals l r) i = due l r i := by
  unfold Clean upToUnknown at h
  unfold due placed upToRefused
  generalize arrivals l r = q at h ⊢
  induction q with
  | nil => rfl
  | cons y q ih =>
    cases hk : y.2.known with
    | false =>
      have hp : y.2.place N = none := by
        by_contra hne
        rw [known_of_place hne] at hk
        cases hk
      have hd : y.2.dest N = none := by
        by_contra hne
        obtain ⟨d, hd⟩ := Option.ne_none_iff_exists'.mp hne
        cases hp.symm.trans (place_of_dest hd)
      rw [List.takeWhile_cons_of_neg (by rw [hp]; exact Bool.false_ne_true),
        List.takeWhile_cons_of_neg (by rw [hd]; exact Bool.false_ne_true)]
      rfl
    | true =>
      rw [List.takeWhile_cons, if_pos hk] at h
      obtain ⟨d, hd⟩ := Option.ne_none_iff_exists'.mp (h y List.mem_cons_self hk)
      have hp := place_of_dest hd
      have hsame : share i y = pickFor i y := by
        unfold share pickFor
        rw [hd, hp]
      rw [List.takeWhile_cons_of_pos (by rw [hp]; rfl), List.takeWhile_cons_of_pos (by rw [hd]; rfl),
        List.filterMap_cons, List.filterMap_cons, hsame,
        ih fun z hz => h z (List.mem_cons_of_mem _ hz)]

/-! ## one round -/

/-- of the messages `arrived`, the loop of the round has taken those of `taken` -/
structure RoundAt (taken arrived waiting : Queue N (Packet M)) (q : BroadcastReceiverQueues N M)
    (l : Loop) : Prop where
  split : arrived = taken ++ waiting
  shared : ∀ i, q.of i = placed taken i
  unborn : l = .unborn → taken = []
  running : l = .running → ∀ y ∈ taken, y.2.place N ≠ none
  ended : l ≠ .unborn → l ≠ .running → ∃ before y, taken = before ++ [y] ∧
    (∀ z ∈ before, z.2.place N ≠ none) ∧ y.2.place N = none ∧ l = y.2.error

section
variable {l : Queue N (Packet M)}

theorem upToRefused_append (h : ∀ y ∈ l, y.2.place N ≠ none) (l' : Queue N (Packet M)) :
    upToRefused (l ++ l') = l ++ upToRefused l' :=
  List.takeWhile_append_of_pos fun y hy => Option.isSome_iff_ne_none.mpr (h y hy)

theorem upToRefused_eq (h : ∀ y ∈ l, y.2.place N ≠ none) : upToRefused l = l := by
  have := upToRefused_append h []
  rwa [List.append_nil, show upToRefused ([] : Queue N (Packet M)) = [] from rfl,
    List.append_nil] at this

/-- after a packet that goes nowhere nothing counts any more -/
theorem upToRefused_concat (h : ∀ y ∈ l, y.2.place N ≠ none) {y : Fin N × Packet M}
    (hy : y.2.place N = none) (l' : Queue N (Packet M)) : upToRefused (l ++ [y] ++ l') = l := by
  have hnone : upToRefused ([y] ++ l') = [] :=
    List.takeWhile_cons_of_neg (by rw [hy]; exact Bool.false_ne_true)
  rw [List.append_assoc, upToRefused_append h, hnone, List.append_nil]

end

theorem Packet.error_ne (x : Packet M) : x.error ≠ .unborn ∧ x.error ≠ .running := by
  unfold Packet.error
  split <;> exact ⟨Loop.noConfusion, Loop.noConfusion⟩

namespace RoundAt
variable {taken arrived waiting : Queue N (Packet M)} {q : BroadcastReceiverQueues N M} {l : Loop}

theorem arrive (h : RoundAt taken arrived waiting q l) (y : Fin N × Packet M) :
    RoundAt taken (arrived ++ [y]) (waiting ++ [y]) q l :=
  { h with split := by rw [h.split, List.append_assoc] }

theorem spawn (h : RoundAt taken arrived waiting q .unborn) :
    RoundAt taken arrived waiting q .running where
  split := h.split
  shared := h.shared
  unborn e := by cases e
  running _ y hy := by
    rw [h.unborn rfl] at hy
    cases hy
  ended _ hne := absurd rfl hne

theorem put {y : Fin N × Packet M} (h : RoundAt taken arrived (y :: waiting) q .running)
    (hy : y.2.place N ≠ none) : ∃ q',
      broadcastReceiver y.1 y.2 q = .inl q' ∧ RoundAt (taken ++ [y]) arrived waiting q' .running := by
  obtain ⟨q', hq⟩ := exists_receiver y.1 q hy
  have hall : ∀ z ∈ taken ++ [y], z.2.place N ≠ none := by
    intro z hz
    rcases List.mem_append.mp hz with hz | hz
    · exact h.running rfl z hz
    · rw [List.mem_singleton.mp hz]
      exact hy
  refine ⟨q', hq, ?_, fun i => ?_, (fun e => by cases e), fun _ => hall, fun _ hne => absurd rfl hne⟩
  · rw [h.split, List.append_assoc]
    rfl
  · rw [broadcastReceiver_place hq i, h.shared i, placed, placed, upToRefused_eq hall,
      upToRefused_eq (h.running rfl), List.filterMap_append]
    congr 1

theorem refuse {y : Fin N × Packet M} (h : RoundAt taken arrived (y :: waiting) q .running)
    (hy : y.2.place N = none) : RoundAt (taken ++ [y]) arrived waiting q y.2.error where
  split := by
    rw [h.split, List.append_assoc]
    rfl
  shared i := by
    have hlast := upToRefused_concat (h.running rfl) hy []
    rw [List.append_nil] at hlast
    rw [h.shared i, placed, placed, hlast, upToRefused_eq (h.running rfl)]
  unborn e := absurd e y.2.error_ne.1
  running e := absurd e y.2.error_ne.2
  ended _ _ := ⟨taken, y, rfl, h.running rfl, hy, rfl⟩

/-- what has been put is the first part of what is put of all that has arrived -/
theorem prefix_placed (h : RoundAt taken arrived waiting q l) (i : Instance N) :
    q.of i <+: placed arrived i := by
  rw [h.shared i, placed, placed, h.split]
  refine List.IsPrefix.filterMap _ ?_
  by_cases hu : l = .unborn
  · rw [h.unborn hu]
    exact List.nil_prefix
  · by_cases hr : l = .running
    · rw [upToRefused_append (h.running hr), upToRefused_eq (h.running hr)]
      exact List.prefix_append _ _
    · obtain ⟨before, y, rfl, hbefore, hy, -⟩ := h.ended hu hr
      have hone := upToRefused_concat hbefore hy []
      rw [List.append_nil] at hone
      rw [hone, upToRefused_concat hbefore hy]

/-- a loop that can take nothing has put all of it -/
theorem eq_placed (h : RoundAt taken arrived waiting q l) (hl : l ≠ .unborn)
    (hidle : l = .running → waiting = []) (i : Instance N) : q.of i = placed arrived i := by
  rw [h.shared i, h.split]
  by_cases hr : l = .running
  · rw [hidle hr, List.append_nil]
  · obtain ⟨before, y, rfl, hbefore, hy, -⟩ := h.ended hl hr
    have hone := upToRefused_concat hbefore hy []
    rw [List.append_nil] at hone
    rw [placed, placed, hone, upToRefused_concat hbefore hy]

end RoundAt

/-! ## all rounds -/

/-- the invariant of the two loops -/
structure Routed (p : Party N M) : Prop where
  round : 0 ≤ p.round
  opened : ∀ r, 0 ≤ r → r < p.round → p.perRoundRecv r ≠ none
  inRound : ∀ tx, p.main = .inRound tx → p.perRoundRecv p.round ≠ none
  ahead : ∀ r, p.round < r ∨ p.main = .top ∧ r = p.round → p.loops r = .unborn
  negative : ∀ r, r < 0 → p.perRoundRecv r = none ∧ p.loops r = .unborn ∧
    ∀ i, (p.queues r).of i = []
  recv : p.recvThread = .running ↔ ∀ r, r < 0 → arrivals p.trace r = []
  rounds : ∀ r, 0 ≤ r →
    ∃ taken, RoundAt taken (arrivals p.trace r) (p.waiting r) (p.queues r) (p.loops r)

theorem of_empty (i : Instance N) :
    (BroadcastReceiverQueues.empty : BroadcastReceiverQueues N M).of i = [] := by
  cases i <;> rfl

theorem Routed.init : Routed (Party.init : Party N M) where
  round := le_refl _
  opened r h0 h1 := absurd h1 (not_lt.mpr h0)
  inRound tx h := by cases h
  ahead _ _ := rfl
  negative _ _ := ⟨rfl, rfl, of_empty⟩
  recv := ⟨fun _ _ _ => rfl, fun _ => rfl⟩
  rounds _ _ := ⟨[], rfl, fun i => of_empty i, fun _ => rfl, (fun e => by cases e),
    fun hne => absurd rfl hne⟩

theorem arrivals_append (l : List (Act N M)) (a : Act N M) (r : ℤ) :
    arrivals (l ++ [a]) r = arrivals l r ++ arrivals [a] r := List.filterMap_append

/-- an action that is not an arrival -/
theorem arrivals_quiet (l : List (Act N M)) (h : ∀ r, arrivals [a] r = []) :
    arrivals (l ++ [a]) = arrivals l := by
  funext r
  rw [arrivals_append, h, List.append_nil]

theorem arrivals_receive (l : List (Act N M)) (sender : Fin N) (r r' : ℤ) (x : Packet M) :
    arrivals (l ++ [.receive sender r x]) r' =
      arrivals l r' ++ if r = r' then [(sender, x)] else [] := by
  rw [arrivals_append]
  congr 1
  by_cases h : r = r' <;> simp [arrivals, h]

/-- a step of the main loop or of `submit_tx` that leaves the queues alone -/
theorem Routed.frame (h : Routed p) (ha : ∀ r, arrivals [a] r = []) (hq : p'.queues = p.queues)
    (hl : p'.loops = p.loops) (hp : p'.perRoundRecv = p.perRoundRecv)
    (hr : p'.recvThread = p.recvThread) (ht : p'.trace = p.trace ++ [a])
    (hmain : p'.round = p.round ∧ (p'.main = p.main ∨ p'.main = .raised) ∨
      p'.round = p.round + 1 ∧ (∃ tx, p.main = .inRound tx) ∧ ∀ tx, p'.main ≠ .inRound tx) :
    Routed p' := by
  have htrace : arrivals p'.trace = arrivals p.trace := by rw [ht, arrivals_quiet _ ha]
  have hround := h.round
  refine
    { round := by omega
      opened := fun r h0 h1 => ?_
      inRound := fun tx htx => ?_
      ahead := fun r hr => ?_
      negative := by rw [hp, hl, hq]; exact h.negative
      recv := by rw [hr, htrace]; exact h.recv
      rounds := by unfold waiting; rw [htrace, hp, hl, hq]; exact h.rounds }
  · rw [hp]
    rcases hmain with ⟨hsame, -⟩ | ⟨hnext, ⟨tx, htx⟩, -⟩
    · exact h.opened r h0 (hsame ▸ h1)
    · rcases (show r < p.round ∨ r = p.round by omega) with h1 | rfl
      · exact h.opened r h0 h1
      · exact h.inRound tx htx
  · rw [hp]
    rcases hmain with ⟨hsame, hm⟩ | ⟨-, -, hno⟩
    · rw [hsame]
      refine h.inRound tx ?_
      rcases hm with hm | hm
      · exact hm ▸ htx
      · cases hm.symm.trans htx
    · exact absurd htx (hno tx)
  · rw [hl]
    rcases hmain with ⟨hsame, hm⟩ | ⟨hnext, -, -⟩
    · rw [hsame] at hr
      refine h.ahead r (hr.imp_right fun ⟨htop, e⟩ => ⟨?_, e⟩)
      rcases hm with hm | hm
      · exact hm ▸ htop
      · cases hm.symm.trans htop
    · exact h.ahead r (.inl (by omega))

/-- what the head of a round does to the queues -/
theorem start_spec (B : ℕ) (p : Party N M) :
    (p.start B).round = p.round ∧ (p.start B).queues = p.queues ∧
    (p.start B).recvThread = p.recvThread ∧
    (∀ r, r ≠ p.round → (p.start B).perRoundRecv r = p.perRoundRecv r) ∧
    (p.start B).perRoundRecv p.round ≠ none ∧
    (∀ r, (p.start B).waiting r = p.waiting r) ∧
    ((p.start B).main = .indexError ∧ (p.start B).loops = p.loops ∨
      (∃ tx, (p.start B).main = .inRound tx) ∧
        (p.start B).loops = Function.update p.loops p.round .running) := by
  have hopen : ∀ r, ((Function.update p.perRoundRecv p.round (some [])) r).getD [] =
      if r = p.round then [] else p.waiting r := by
    intro r
    by_cases hr : r = p.round
    · rw [hr, Function.update_self, if_pos rfl]
      rfl
    · rw [Function.update_of_ne hr, if_neg hr]
      rfl
  unfold start waiting
  cases hq : p.perRoundRecv p.round with
  | none =>
    have hwait : ∀ r, ((Function.update p.perRoundRecv p.round (some [])) r).getD [] =
        (p.perRoundRecv r).getD [] := by
      intro r
      rw [hopen]
      split
      · next hr => rw [hr, hq]; rfl
      · rfl
    dsimp only
    split
    · exact ⟨rfl, rfl, rfl, fun r hr => Function.update_of_ne hr _ _, by simp, hwait,
        .inl ⟨rfl, rfl⟩⟩
    · exact ⟨rfl, rfl, rfl, fun r hr => Function.update_of_ne hr _ _, by simp, hwait,
        .inr ⟨⟨_, rfl⟩, rfl⟩⟩
  | some q =>
    dsimp only
    split
    · exact ⟨rfl, rfl, rfl, fun _ _ => rfl, by simp [hq], fun _ => rfl, .inl ⟨rfl, rfl⟩⟩
    · exact ⟨rfl, rfl, rfl, fun _ _ => rfl, by simp [hq], fun _ => rfl, .inr ⟨⟨_, rfl⟩, rfl⟩⟩

theorem Routed.start (h : Routed p) (hm : p.main = .top) :
    Routed { p.start B with trace := p.trace ++ [.start] } := by
  obtain ⟨hround, hq, hrecv, hother, hopen, hwait, hcase⟩ := start_spec B p
  have htrace : arrivals (p.trace ++ [.start]) = arrivals p.trace := arrivals_quiet _ fun _ => rfl
  have hr0 := h.round
  have hfresh := h.ahead p.round (.inr ⟨hm, rfl⟩)
  refine
    { round := hround ▸ h.round
      opened := fun r h0 h1 => ?_
      inRound := fun _ _ => hround ▸ hopen
      ahead := fun r hr => ?_
      negative := fun r hr => ?_
      recv := ?_
      rounds := fun r hr => ?_ } <;> dsimp only at *
  · rw [hround] at h1
    rw [hother r (by omega)]
    exact h.opened r h0 h1
  · rw [hround] at hr
    have hlt : p.round < r := by
      rcases hr with hr | ⟨htop, -⟩
      · exact hr
      · rcases hcase with ⟨e, -⟩ | ⟨⟨tx, e⟩, -⟩ <;> cases e.symm.trans htop
    rcases hcase with ⟨-, hl⟩ | ⟨-, hl⟩ <;> rw [hl]
    · exact h.ahead r (.inl hlt)
    · rw [Function.update_of_ne (by omega)]
      exact h.ahead r (.inl hlt)
  · obtain ⟨h1, h2, h3⟩ := h.negative r hr
    refine ⟨by rw [hother r (by omega), h1], ?_, by rw [hq]; exact h3⟩
    rcases hcase with ⟨-, hl⟩ | ⟨-, hl⟩ <;> rw [hl]
    · exact h2
    · rw [Function.update_of_ne (by omega)]
      exact h2
  · rw [hrecv, htrace]
    exact h.recv
  · obtain ⟨taken, ht⟩ := h.rounds r hr
    refine ⟨taken, ?_⟩
    show RoundAt taken (arrivals (p.trace ++ [.start]) r) ((p.start B).waiting r) _ _
    rw [htrace, hwait, hq]
    rcases hcase with ⟨-, hl⟩ | ⟨-, hl⟩ <;> rw [hl]
    · exact ht
    · by_cases hrr : r = p.round
      · subst hrr
        rw [Function.update_self]
        rw [hfresh] at ht
        exact ht.spawn
      · rwa [Function.update_of_ne hrr]

theorem Routed.nonneg_of_queue (h : Routed p) {r : ℤ} {q : Queue N (Packet M)}
    (hq : p.perRoundRecv r = some q) : 0 ≤ r := by
  by_contra hneg
  rw [(h.negative r (by omega)).1] at hq
  cases hq

theorem update_ne_none {β : Type} {m : ℤ → Option β} {r' : ℤ} (h : m r' ≠ none) (r : ℤ) (v : β) :
    Function.update m r (some v) r' ≠ none := by
  by_cases e : r' = r
  · rw [e, Function.update_self]
    exact Option.some_ne_none _
  · rwa [Function.update_of_ne e]

/-- the queues and the loop of the round `r` change, and the arrivals for it -/
theorem Routed.setRound (h : Routed p) {r : ℤ} (h0 : 0 ≤ r) {l : List (Act N M)}
    (hsame : ∀ r', r' ≠ r → arrivals l r' = arrivals p.trace r')
    {taken waiting : Queue N (Packet M)} {q : BroadcastReceiverQueues N M} {loop : Loop}
    (hborn : p.loops r = .unborn → loop = .unborn)
    (hr : RoundAt taken (arrivals l r) waiting q loop) :
    Routed { p with
      perRoundRecv := Function.update p.perRoundRecv r (some waiting)
      queues := Function.update p.queues r q
      loops := Function.update p.loops r loop
      trace := l } := by
  refine
    { h with
      opened := fun r' h0 h1 => update_ne_none (h.opened r' h0 h1) r waiting
      inRound := fun tx htx => update_ne_none (h.inRound tx htx) r waiting
      ahead := fun r' hr' => ?_
      negative := fun r' hr' => ?_
      recv := ?_
      rounds := fun r' hr' => ?_ } <;> dsimp only at *
  · by_cases e : r' = r
    · subst e
      rw [Function.update_self]
      exact hborn (h.ahead r' hr')
    · rw [Function.update_of_ne e]
      exact h.ahead r' hr'
  · have e : r' ≠ r := by omega
    rw [Function.update_of_ne e, Function.update_of_ne e, Function.update_of_ne e]
    exact h.negative r' hr'
  · rw [h.recv]
    refine forall₂_congr fun r' hr' => ?_
    rw [hsame r' (by omega)]
  · unfold Party.waiting
    dsimp only
    by_cases e : r' = r
    · subst e
      rw [Function.update_self, Function.update_self, Function.update_self]
      exact ⟨taken, hr⟩
    · rw [Function.update_of_ne e, Function.update_of_ne e, Function.update_of_ne e, hsame r' e]
      exact h.rounds r' hr'

/-- a message goes to the queue of its round, which is there or is made -/
theorem Routed.put (h : Routed p) (sender : Fin N) {r : ℤ} {x : Packet M} (h0 : 0 ≤ r) :
    Routed { p with
      perRoundRecv := Function.update p.perRoundRecv r (some (p.waiting r ++ [(sender, x)]))
      trace := p.trace ++ [.receive sender r x] } := by
  obtain ⟨taken, ht⟩ := h.rounds r h0
  have hr : RoundAt taken (arrivals (p.trace ++ [.receive sender r x]) r)
      (p.waiting r ++ [(sender, x)]) (p.queues r) (p.loops r) := by
    rw [arrivals_receive, if_pos rfl]
    exact ht.arrive (sender, x)
  have hset := h.setRound h0 (fun r' e => ?_) id hr
  · rwa [Function.update_eq_self, Function.update_eq_self] at hset
  · rw [arrivals_receive, if_neg e.symm, List.append_nil]

/-- a message with a negative round ends the loop -/
theorem Routed.refuse (h : Routed p) {sender : Fin N} {r : ℤ} {x : Packet M} (hneg : r < 0) :
    Routed { p with
      recvThread := .assertionError
      trace := p.trace ++ [.receive sender r x] } := by
  refine
    { h with
      recv := ⟨fun e => (by cases e), fun hno => ?_⟩
      rounds := fun r' hr' => ?_ }
  · have := hno r hneg
    rw [arrivals_receive, if_pos rfl] at this
    exact absurd this (by simp)
  · show ∃ taken, RoundAt taken (arrivals (p.trace ++ [.receive sender r x]) r') (p.waiting r') _ _
    rw [arrivals_receive, if_neg (by omega), List.append_nil]
    exact h.rounds r' hr'

theorem Routed.receive (h : Routed p) {sender : Fin N} {r : ℤ} {x : Packet M} :
    Routed { p.receive sender r x with trace := p.trace ++ [.receive sender r x] } := by
  unfold Party.receive
  cases hq : p.perRoundRecv r with
  | some q =>
    have hput := h.put sender (x := x) (h.nonneg_of_queue hq)
    rwa [waiting, hq] at hput
  | none =>
    dsimp only
    by_cases hle : p.round ≤ r
    · have hput := h.put sender (x := x) (h.round.trans hle)
      rw [if_pos hle]
      rwa [waiting, hq] at hput
    · -- the assertion fails: the round is negative, for the queues of past rounds are there
      rw [if_neg hle]
      refine h.refuse ?_
      by_contra h0
      exact h.opened r (by omega) (by omega) hq

theorem route_cases {r : ℤ} (h : p.route r = some p') : p.loops r = .running ∧
    ∃ y rest, p.perRoundRecv r = some (y :: rest) ∧ p' = p.routeOne r y rest := by
  unfold route at h
  split at h
  · next hl =>
    split at h
    · next y rest hq => exact ⟨hl, y, rest, hq, (Option.some.inj h).symm⟩
    · cases h
  · cases h

/-- everything but the queue and the loop of the round is the same -/
theorem Routed.routeOne (h : Routed p) {r : ℤ} {y : Fin N × Packet M} {rest : Queue N (Packet M)}
    (hl : p.loops r = .running) (hq : p.perRoundRecv r = some (y :: rest)) :
    Routed (p.routeOne r y rest) := by
  have h0 := h.nonneg_of_queue hq
  obtain ⟨taken, ht⟩ := h.rounds r h0
  rw [waiting, hq, hl] at ht
  replace ht : RoundAt taken (arrivals p.trace r) (y :: rest) (p.queues r) .running := ht
  have hborn : ∀ l : Loop, p.loops r = .unborn → l = .unborn := fun l e => by
    rw [hl] at e
    cases e
  unfold Party.routeOne
  dsimp only
  cases hy : y.2.place N with
  | none =>
    have hset := h.setRound h0 (fun _ _ => rfl) (hborn _) (ht.refuse hy)
    rw [broadcastReceiver_refused hy]
    rwa [Function.update_eq_self] at hset
  | some i =>
    obtain ⟨q', hq', ht'⟩ := ht.put (by rw [hy]; exact Option.some_ne_none i)
    have hset := h.setRound h0 (fun _ _ => rfl) (hborn _) ht'
    rw [hq']
    rwa [← hl, Function.update_eq_self] at hset

theorem Routed.traced (h : Routed p) (ha : ∀ r, arrivals [a] r = []) :
    Routed { p with trace := p.trace ++ [a] } :=
  h.frame ha rfl rfl rfl rfl rfl (.inl ⟨rfl, .inl rfl⟩)

theorem route_trace {r : ℤ} (h : p.route r = some p') : p'.trace = p.trace := by
  obtain ⟨-, y, rest, -, rfl⟩ := route_cases h
  unfold Party.routeOne
  dsimp only
  split <;> rfl

theorem Routed.route (h : Routed p) {r : ℤ} (hp : p.route r = some p') : Routed p' := by
  obtain ⟨hl, y, rest, hq, rfl⟩ := route_cases hp
  exact h.routeOne hl hq

/-- **step lemma** -/
theorem Routed.next (h : Routed p) (hn : p.next B a = some p') : Routed p' := by
  obtain ⟨x, hx, rfl⟩ := next_cases hn
  cases a with
  | submit tx =>
    obtain rfl := Option.some.inj hx
    exact h.frame (fun _ => rfl) rfl rfl rfl rfl rfl (.inl ⟨rfl, .inl rfl⟩)
  | start =>
    simp only [act] at hx
    split at hx
    · next hm =>
      obtain rfl := Option.some.inj hx
      exact h.start hm
    · cases hx
  | finish newTx =>
    simp only [act] at hx
    split at hx
    · next tx hm =>
      obtain rfl := Option.some.inj hx
      refine h.frame (fun _ => rfl) rfl rfl rfl rfl rfl (.inr ⟨rfl, ⟨tx, hm⟩, fun tx' e => ?_⟩)
      unfold finish at e
      dsimp only at e
      split at e <;> cases e
    · cases hx
  | fail =>
    simp only [act] at hx
    split at hx
    · obtain rfl := Option.some.inj hx
      exact h.frame (fun _ => rfl) rfl rfl rfl rfl rfl (.inl ⟨rfl, .inr rfl⟩)
    · cases hx
  | receive sender r y =>
    simp only [act] at hx
    split at hx
    · obtain rfl := Option.some.inj hx
      exact h.receive
    · cases hx
  | route r =>
    have := (h.route hx).traced (a := .route r) fun _ => rfl
    rwa [route_trace hx] at this

theorem reached_routed (h : Reached B ok p) : Routed p :=
  Reach.invariant Routed (fun _ _ _ hp _ hn => hp.next hn) h Routed.init

/-! ## what is put -/

/-- a loop that can take nothing has died or has taken everything -/
theorem idle_cases {r : ℤ} (h : p.route r = none) : p.loops r = .running → p.waiting r = [] := by
  intro hl
  unfold route at h
  rw [if_pos hl] at h
  unfold waiting
  cases hq : p.perRoundRecv r with
  | none => rfl
  | some q =>
    cases q with
    | nil => rfl
    | cons y rest =>
      rw [hq] at h
      cases h

theorem Routed.nonneg (h : Routed p) {r : ℤ} (hr : p.loops r ≠ .unborn) : 0 ≤ r := by
  by_contra hneg
  exact hr (h.negative r (by omega)).2.1

theorem Routed.idle (h : Routed p) {r : ℤ} (hr : p.loops r ≠ .unborn) (hidle : p.route r = none)
    (i : Instance N) : (p.queues r).of i = placed (arrivals p.trace r) i := by
  obtain ⟨taken, ht⟩ := h.rounds r (h.nonneg hr)
  exact ht.eq_placed hr (idle_cases hidle) i

theorem route_waiting {r : ℤ} (h : p.route r = some p') :
    (p'.waiting r).length + 1 = (p.waiting r).length ∧ p'.loops r ≠ .unborn := by
  obtain ⟨hl, y, rest, hq, rfl⟩ := route_cases h
  unfold Party.routeOne waiting
  rw [hq]
  dsimp only
  cases hx : broadcastReceiver y.1 y.2 (p.queues r) with
  | inl q =>
    dsimp only
    rw [Function.update_self, hl]
    exact ⟨rfl, Loop.noConfusion⟩
  | inr e =>
    dsimp only
    rw [Function.update_self, Function.update_self]
    refine ⟨rfl, ?_⟩
    rintro rfl
    -- the exceptions are those of `broadcast_receiver`
    unfold broadcastReceiver at hx
    split at hx
    · cases hx
    · cases hx
    all_goals split at hx <;> cases hx

theorem Routed.drain {r : ℤ} (i : Instance N) (k : ℕ) : ∀ {p : Party N M}, Routed p →
    p.loops r ≠ .unborn → (p.waiting r).length ≤ k →
      ((p.drain r k).queues r).of i = placed (arrivals p.trace r) i := by
  induction k with
  | zero =>
    intro p h hr hk
    obtain ⟨taken, ht⟩ := h.rounds r (h.nonneg hr)
    exact ht.eq_placed hr (fun _ => List.eq_nil_of_length_eq_zero (Nat.le_zero.mp hk)) i
  | succ k ih =>
    intro p h hr hk
    unfold Party.drain
    cases hx : p.route r with
    | none => exact h.idle hr hx i
    | some x =>
      obtain ⟨hlen, hborn⟩ := route_waiting hx
      rw [← route_trace hx]
      exact ih (h.route hx) hborn (by omega)

theorem Routed.unborn (h : Routed p) {r : ℤ} (hr : p.loops r = .unborn) (i : Instance N) :
    (p.queues r).of i = [] := by
  by_cases h0 : 0 ≤ r
  · obtain ⟨taken, ht⟩ := h.rounds r h0
    rw [ht.shared i, ht.unborn hr]
    rfl
  · exact (h.negative r (by omega)).2.2 i

/-- the loop of a round dies of an unknown tag, if no index is out of range -/
theorem Routed.dead_iff (h : Routed p) {r : ℤ} (hr : p.loops r ≠ .unborn)
    (hidle : p.route r = none) (hclean : Clean p.trace r) :
    p.loops r = .unknownTagError ↔ ∃ y ∈ arrivals p.trace r, y.2.known = false := by
  obtain ⟨taken, ht⟩ := h.rounds r (h.nonneg hr)
  constructor
  · intro hl
    obtain ⟨before, y, rfl, -, -, herr⟩ := ht.ended hr (by rw [hl]; exact Loop.noConfusion)
    refine ⟨y, by rw [ht.split]; simp, eq_false_of_ne_true fun hk => ?_⟩
    rw [hl, Packet.error, if_pos hk] at herr
    cases herr
  · rintro ⟨y, hy, hk⟩
    by_cases hl : p.loops r = .running
    · rw [ht.split, idle_cases hidle hl, List.append_nil] at hy
      rw [known_of_place (ht.running hl y hy)] at hk
      cases hk
    · obtain ⟨before, z, rfl, hbefore, hz, herr⟩ := ht.ended hr hl
      rw [herr, Packet.error, if_neg]
      -- with one of the four tags it would be one of the messages that are clean
      intro hknown
      have hmem : z ∈ upToUnknown (arrivals p.trace r) := by
        rw [ht.split, List.append_assoc]
        unfold upToUnknown
        rw [List.takeWhile_append_of_pos fun x hx => known_of_place (hbefore x hx),
          List.singleton_append, List.takeWhile_cons, if_pos hknown]
        simp
      obtain ⟨d, hd⟩ := Option.ne_none_iff_exists'.mp (hclean z hmem hknown)
      cases hz.symm.trans (place_of_dest hd)

/-- **routing**: in a round that has started, what is due to each instance is put first, each message
once and in the order of arrival; as long as no message has an index out of range nothing else is put,
and only an unknown tag ends the loop of the round; a message with a negative round ends `_recv` -/
theorem routing (N B : ℕ) (M : Type) (p : Party N M) (h : Reached B (fun _ _ => True) p) :
    (∀ r, p.loops r ≠ .unborn → ∀ i,
      ((p.queues r).of i <+: due p.trace r i ∨ due p.trace r i <+: (p.queues r).of i) ∧
      (p.route r = none → due p.trace r i <+: (p.queues r).of i) ∧
      ∀ k, (p.waiting r).length ≤ k → due p.trace r i <+: ((p.drain r k).queues r).of i) ∧
    (∀ r, p.loops r ≠ .unborn → Clean p.trace r → ∀ i, (p.queues r).of i <+: due p.trace r i ∧
      (p.route r = none → (p.queues r).of i = due p.trace r i) ∧
      ∀ k, (p.waiting r).length ≤ k → ((p.drain r k).queues r).of i = due p.trace r i) ∧
    (∀ r, p.loops r = .unborn → ∀ i, (p.queues r).of i = []) ∧
    (∀ r, p.loops r ≠ .unborn → p.route r = none → Clean p.trace r →
      (p.loops r = .unknownTagError ↔ ∃ y ∈ arrivals p.trace r, y.2.known = false)) ∧
    (∀ r, r < 0 → p.loops r = .unborn) ∧
    (p.recvThread = .running ↔ ∀ r, r < 0 → arrivals p.trace r = []) ∧
    (p.recvThread ≠ .running → ∀ sender r x, p.next B (.receive sender r x) = none) := by
  have hrouted := reached_routed h
  have hfirst : ∀ r, p.loops r ≠ .unborn → ∀ i,
      (p.queues r).of i <+: placed (arrivals p.trace r) i := fun r hr i => by
    obtain ⟨taken, ht⟩ := hrouted.rounds r (hrouted.nonneg hr)
    exact ht.prefix_placed i
  refine ⟨fun r hr i => ⟨?_, fun hidle => ?_, fun k hk => ?_⟩, fun r hr hclean i => ?_,
    fun r hr i => hrouted.unborn hr i, fun r hr hidle hclean => hrouted.dead_iff hr hidle hclean,
    fun r hr => (hrouted.negative r hr).2.1, hrouted.recv, fun hdead sender r x => ?_⟩
  · exact List.prefix_or_prefix_of_prefix (hfirst r hr i) (due_prefix_placed p.trace r i)
  · rw [hrouted.idle hr hidle i]
    exact due_prefix_placed p.trace r i
  · rw [hrouted.drain i k hr hk]
    exact due_prefix_placed p.trace r i
  · rw [← placed_eq_due hclean i]
    exact ⟨hfirst r hr i, fun hidle => hrouted.idle hr hidle i, fun k hk => hrouted.drain i k hr hk⟩
  · rw [Party.next, act, if_neg hdead]
    rfl

instance (x : Packet M) : Decidable (Indexed N x) :=
  inferInstanceAs (Decidable (x.known = true → x.dest N ≠ none))

instance (p : Party N M) : DecidablePred (AllIndexed p)
  | .receive _ _ x => inferInstanceAs (Decidable (Indexed N x))
  | .submit _ => isTrue trivial
  | .start => isTrue trivial
  | .finish _ => isTrue trivial
  | .fail => isTrue trivial
  | .route _ => isTrue trivial

/-- messages for the rounds 0 and 1 before the round 0 starts, and one with an unknown tag -/
def earlyRun : List (Act Committee.four.N ℕ) :=
  [.submit [0x61], .receive 1 0 ⟨.ACS_RBC, 2, 10⟩, .receive 2 1 ⟨.TPKE, 9, 20⟩, .start,
    .receive 1 0 ⟨.ACS_RBC, 2, 11⟩, .receive 3 0 ⟨.other "BogusTag", 0, 30⟩,
    .receive 1 0 ⟨.ACS_RBC, 2, 12⟩, .route 0, .route 0, .route 0]

instance (l : List (Act N M)) (r : ℤ) : Decidable (Clean l r) :=
  inferInstanceAs (Decidable (∀ y ∈ upToUnknown (arrivals l r), Indexed N y.2))

/-- and one with an index out of range for the round 1 -/
def strayRun : List (Act Committee.four.N ℕ) := earlyRun ++ [.receive 3 1 ⟨.ACS_ABA, 7, 31⟩]

theorem routing_four : ∃ p : Party 4 ℕ, Reached 1 (fun _ _ => True) p ∧
    (p.queues 0).of (.ACS_RBC 2) = due p.trace 0 (.ACS_RBC 2) ∧
    due p.trace 0 (.ACS_RBC 2) = [(1, 10), (1, 11)] ∧ (p.queues 1).of .TPKE = [] := by
  obtain ⟨p, hp, hgood⟩ := exists_exec 1 (fun _ _ => True) strayRun (fun p : Party 4 ℕ =>
    decide (p.loops 0 ≠ .unborn ∧ p.loops 1 = .unborn ∧ Clean p.trace 0 ∧
      due p.trace 0 (.ACS_RBC 2) = [(1, 10), (1, 11)]) && (p.route 0).isNone) (by decide)
  obtain ⟨h1, hidle⟩ := (Bool.and_eq_true ..).mp hgood
  obtain ⟨hr, hu, hclean, hdue⟩ := of_decide_eq_true h1
  obtain ⟨-, hput, hnone, -⟩ := routing 4 1 ℕ p hp
  exact ⟨p, hp, (hput 0 hr hclean (.ACS_RBC 2)).2.1 (Option.isNone_iff_eq_none.mp hidle), hdue,
    hnone 1 hu .TPKE⟩

/-- after a message with an unknown tag a message of an honest party is not put, and after one with
a negative round none is received -/
theorem bad_message_stops :
    (¬ ∀ p : Party 4 ℕ, Reached 1 AllIndexed p → ∀ r, p.loops r ≠ .unborn → p.route r = none →
      ∀ i, (p.queues r).of i = (arrivals p.trace r).filterMap (share i)) ∧
    ¬ ∀ p : Party 4 ℕ, Reached 1 AllIndexed p → ∀ sender r x,
      p.next 1 (.receive sender r x) ≠ none := by
  constructor <;> intro hclaim
  · obtain ⟨p, hp, hgood⟩ := exists_exec 1 AllIndexed earlyRun (fun p : Party 4 ℕ =>
      decide (p.loops 0 ≠ .unborn ∧ (p.queues 0).of (.ACS_RBC 2) = [(1, 10), (1, 11)] ∧
        (arrivals p.trace 0).filterMap (share (.ACS_RBC 2)) = [(1, 10), (1, 11), (1, 12)]) &&
          (p.route 0).isNone) (by decide)
    obtain ⟨h1, hidle⟩ := (Bool.and_eq_true ..).mp hgood
    obtain ⟨hr, hq, hall⟩ := of_decide_eq_true h1
    have := hclaim p hp 0 hr (Option.isNone_iff_eq_none.mp hidle) (.ACS_RBC 2)
    rw [hq, hall] at this
    exact absurd this (by decide)
  · obtain ⟨p, hp, hgood⟩ := exists_exec 1 AllIndexed [.receive 3 (-1) ⟨.TPKE, 0, 30⟩]
      (fun p : Party 4 ℕ => (p.next 1 (.receive 1 0 ⟨.TPKE, 0, 10⟩)).isNone) (by decide)
    exact hclaim p hp 1 0 ⟨.TPKE, 0, 10⟩ (Option.isNone_iff_eq_none.mp hgood)

end HoneyBadger
