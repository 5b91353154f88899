import HoneyBadgerBFT.BinaryAgreement.Local

/-!
# Binary agreement: the invariant of one call

The points of a round are numbered in the order in which the main loop passes them: 1 the start, 2
the AUX message, 3 the CONF message, 4 the return of `wait_for_conf_values`, 5 the coin.  `Past p r
k`: the call is past the point `k` of the round `r`.

* `Ordered`   the marks that the main loop leaves in the trace are, each once, the points that the
              call is past;
* `Backed`    what stands behind each entry of the trace;
* `Current`   what the main loop has in hand at its present test.

`Call f p` puts them together; `Call.recv` and `Call.act` are the step lemmas.
-/

namespace BA

/-- the round and the point that an entry of the trace marks -/
def Out.mark : Out → Option (ℤ × ℕ)
  | .starting r _ => some (r, 1)
  | .broadcast (.AUX r _) => some (r, 2)
  | .broadcast (.CONF r _) => some (r, 3)
  | .confReturn r _ => some (r, 4)
  | .received r _ => some (r, 5)
  | _ => none

/-- the point that the main loop is to pass next -/
def Pc.stage : Pc → ℕ
  | .input => 0
  | .top => 1
  | .bin => 2
  | .aux => 3
  | .conf => 4
  | .coin _ => 5
  | .returned => 6

namespace Party
variable {n : ℕ}

def marks (p : Party n) : List (ℤ × ℕ) := p.trace.filterMap Out.mark

def Past (p : Party n) (r : ℤ) (k : ℕ) : Prop := 0 ≤ r ∧ (r < p.r ∨ r = p.r ∧ k < p.pc.stage)

instance (p : Party n) (r : ℤ) (k : ℕ) : Decidable (p.Past r k) :=
  inferInstanceAs (Decidable (_ ∧ _))

/-! ## order -/

structure Ordered (p : Party n) : Prop where
  nonneg : 0 ≤ p.r
  nodup : p.marks.Nodup
  mem_iff : ∀ r k, (r, k) ∈ p.marks ↔ 1 ≤ k ∧ k ≤ 5 ∧ p.Past r k

theorem mem_marks {p : Party n} {o : Out} {x : ℤ × ℕ} (ho : o ∈ p.trace) (hx : o.mark = some x) :
    x ∈ p.marks := List.mem_filterMap.mpr ⟨o, ho, hx⟩

/-- two entries of the trace with one mark are one entry -/
theorem eq_of_mark {l : List Out} (hl : (l.filterMap Out.mark).Nodup) {o o' : Out} {x : ℤ × ℕ}
    (ho : o ∈ l) (ho' : o' ∈ l) (hx : o.mark = some x) (hx' : o'.mark = some x) : o = o' := by
  induction l with
  | nil => cases ho
  | cons a l ih =>
    have hmem : ∀ {b}, b ∈ l → b.mark = some x → x ∈ l.filterMap Out.mark :=
      fun hb hbx => List.mem_filterMap.mpr ⟨_, hb, hbx⟩
    rcases List.mem_cons.mp ho with rfl | h1 <;> rcases List.mem_cons.mp ho' with rfl | h2
    · rfl
    · rw [List.filterMap_cons_some hx, List.nodup_cons] at hl
      exact absurd (hmem h2 hx') hl.1
    · rw [List.filterMap_cons_some hx', List.nodup_cons] at hl
      exact absurd (hmem h1 hx) hl.1
    · refine ih ?_ h1 h2
      cases ha : a.mark with
      | none => rwa [List.filterMap_cons_none ha] at hl
      | some y =>
        rw [List.filterMap_cons_some ha] at hl
        exact hl.of_cons

theorem Ordered.eq {p : Party n} (h : p.Ordered) {o o' : Out} {x : ℤ × ℕ} (ho : o ∈ p.trace)
    (ho' : o' ∈ p.trace) (hx : o.mark = some x) (hx' : o'.mark = some x) : o = o' :=
  eq_of_mark h.nodup ho ho' hx hx'

theorem Ordered.past {p : Party n} (h : p.Ordered) {o : Out} {r : ℤ} {k : ℕ} (ho : o ∈ p.trace)
    (hx : o.mark = some (r, k)) : p.Past r k :=
  ((h.mem_iff r k).mp (mem_marks ho hx)).2.2

theorem Ordered.congr {p p' : Party n} (h : p.Ordered) (hr : p'.r = p.r)
    (hpc : p'.pc.stage = p.pc.stage) (hm : p'.marks = p.marks) : p'.Ordered := by
  refine ⟨hr ▸ h.nonneg, hm ▸ h.nodup, fun r k => ?_⟩
  rw [hm, h.mem_iff]
  simp only [Past, hr, hpc]

/-- the step of the main loop past one point -/
theorem Ordered.advance {p p' : Party n} (h : p.Ordered)
    (hm : p'.marks = (p.r, p.pc.stage) :: p.marks) (hk : 1 ≤ p.pc.stage ∧ p.pc.stage ≤ 5)
    (hnext : p'.r = p.r ∧ p'.pc.stage = p.pc.stage + 1 ∨
      p.pc.stage = 5 ∧ p'.r = p.r + 1 ∧ p'.pc.stage = 1) : p'.Ordered := by
  have hnn := h.nonneg
  refine ⟨by omega, ?_, fun r k => ?_⟩
  · rw [hm, List.nodup_cons, h.mem_iff]
    refine ⟨fun hc => ?_, h.nodup⟩
    have := hc.2.2.2
    omega
  · rw [hm, List.mem_cons, h.mem_iff, Prod.mk.injEq]
    unfold Past
    omega

/-! ## backing -/

/-- the reason why round `r` may start with the estimate `e` -/
def EstFrom (p : Party n) (r : ℤ) (e : Bool) : Prop :=
  r = 0 ∨ ∃ V s, .confReturn (r - 1) V ∈ p.trace ∧ .received (r - 1) s ∈ p.trace ∧
    (V = {e} ∨ V = {false, true} ∧ e = s)

/-- what stands behind an entry of the trace -/
def Backed (f : ℕ) (p : Party n) : Out → Prop
  | .starting r e => p.EstFrom r e ∧ p.estSent r e = true
  | .broadcast (.EST r v) =>
    p.estSent r v = true ∧ (.starting r v ∈ p.trace ∨ f + 1 ≤ (p.estValues r v).card)
  | .broadcast (.AUX r w) => w ∈ p.binValues r
  | .broadcast (.CONF r c) =>
    ∃ B, B ≠ ∅ ∧ B ⊆ p.binValues r ∧ c = iter B ∧
      ∀ v, B = {v} → n - f ≤ (p.auxValues r v).card
  | .confReturn r V =>
    (∃ v, V = {v} ∧ v ∈ p.binValues r ∧ n - f ≤ (p.confValues r [v]).card) ∨
    (V = {false, true} ∧ ∀ v, v ∈ p.binValues r)
  | .decide v => ∃ r, .confReturn r {v} ∈ p.trace ∧ .received r v ∈ p.trace
  | .received _ _ => True
  | .coin _ => True

theorem EstFrom.mono {p p' : Party n} (h : p.trace ⊆ p'.trace) {r : ℤ} {e : Bool}
    (hb : p.EstFrom r e) : p'.EstFrom r e := by
  rcases hb with h0 | ⟨V, s, h1, h2, h3⟩
  · exact .inl h0
  · exact .inr ⟨V, s, h h1, h h2, h3⟩

theorem Backed.mono {f : ℕ} {p p' : Party n} (h : p.Grows p') {o : Out} (hb : p.Backed f o) :
    p'.Backed f o := by
  cases o with
  | starting r e => exact ⟨hb.1.mono h.trace, h.estSent r e hb.2⟩
  | broadcast m =>
    cases m with
    | EST r v =>
      refine ⟨h.estSent r v hb.1, hb.2.imp (fun h0 => h.trace h0) fun h1 => ?_⟩
      exact h1.trans (Finset.card_le_card (h.est r v))
    | AUX r w => exact h.bin r hb
    | CONF r c =>
      obtain ⟨B, h0, h1, h2, h3⟩ := hb
      exact ⟨B, h0, h1.trans (h.bin r), h2,
        fun v hv => (h3 v hv).trans (Finset.card_le_card (h.aux r v))⟩
  | confReturn r V =>
    rcases hb with ⟨v, h1, h2, h3⟩ | ⟨h1, h2⟩
    · exact .inl ⟨v, h1, h.bin r h2, h3.trans (Finset.card_le_card (h.conf r [v]))⟩
    · exact .inr ⟨h1, fun v => h.bin r (h2 v)⟩
  | decide v =>
    obtain ⟨r, h1, h2⟩ := hb
    exact ⟨r, h.trace h1, h.trace h2⟩
  | received r s => trivial
  | coin r => trivial

/-! ## the exit tests -/

theorem nextIter_mem {s : Finset Bool} (h : s ≠ ∅) : nextIter s ∈ s := by
  revert h
  revert s
  decide

theorem auxExit_cases {f : ℕ} {p : Party n} {V : Finset Bool} (h : p.auxExit f = some V) :
    (∃ v, V = {v} ∧ v ∈ p.binValues p.r ∧ n - f ≤ (p.auxValues p.r v).card) ∨
    (V = {false, true} ∧ n - f ≤ ∑ v ∈ p.binValues p.r, (p.auxValues p.r v).card) := by
  unfold auxExit at h
  dsimp only at h
  split at h
  · next hc => exact .inl ⟨true, (Option.some.inj h).symm, hc.1, hc.2⟩
  · split at h
    · next hc => exact .inl ⟨false, (Option.some.inj h).symm, hc.1, hc.2⟩
    · split at h
      · next hc => exact .inr ⟨(Option.some.inj h).symm, hc⟩
      · cases h

/-- with one bit in `bin_values`, an AUX loop that ends has `N-f` messages for it -/
theorem auxExit_single {f : ℕ} {p : Party n} {V : Finset Bool} (h : p.auxExit f = some V) {v : Bool}
    (hv : p.binValues p.r = {v}) : n - f ≤ (p.auxValues p.r v).card := by
  rcases auxExit_cases h with ⟨w, -, hw, hc⟩ | ⟨-, hc⟩
  · rw [hv, Finset.mem_singleton] at hw
    exact hw ▸ hc
  · rwa [hv, Finset.sum_singleton] at hc

theorem confKeys_map_sum (g : List Bool → ℕ) (q : List Bool → Bool) :
    ((confKeys.filter q).map g).sum =
      (if q [false] then g [false] else 0) + (if q [true] then g [true] else 0) +
        (if q [false, true] then g [false, true] else 0) := by
  unfold confKeys
  cases h0 : q [false] <;> cases h1 : q [true] <;> cases h2 : q [false, true] <;>
    simp [h0, h1, h2, Nat.add_assoc]

/-- the sum of the third test, key by key -/
theorem confSum_eq (p : Party n) (r : ℤ) :
    p.confSum r =
      (if false ∈ p.binValues r then (p.confValues r [false]).card else 0) +
      (if true ∈ p.binValues r then (p.confValues r [true]).card else 0) +
      (if false ∈ p.binValues r ∧ true ∈ p.binValues r then (p.confValues r [false, true]).card
        else 0) := by
  have key : ∀ (c : List Bool) (b : Prop) [Decidable b], (b ↔ ∀ x ∈ c, x ∈ p.binValues r) →
      (if decide (p.confValues r c ≠ ∅ ∧ ∀ b ∈ c, b ∈ p.binValues r) = true
        then (p.confValues r c).card else 0) = if b then (p.confValues r c).card else 0 := by
    intro c b _ hb
    by_cases he : p.confValues r c = ∅
    · rw [he, Finset.card_empty, ite_self, ite_self]
    · have hiff : decide (p.confValues r c ≠ ∅ ∧ ∀ b ∈ c, b ∈ p.binValues r) = true ↔ b := by
        rw [decide_eq_true_iff, hb]
        exact ⟨fun h => h.2, fun h => ⟨he, h⟩⟩
      by_cases hbb : b
      · rw [if_pos hbb, if_pos (hiff.mpr hbb)]
      · rw [if_neg hbb, if_neg fun h => hbb (hiff.mp h)]
  unfold confSum
  rw [confKeys_map_sum]
  rw [key [false] (false ∈ p.binValues r) (by simp), key [true] (true ∈ p.binValues r) (by simp),
    key [false, true] (false ∈ p.binValues r ∧ true ∈ p.binValues r) (by simp)]

theorem confExit_cases {f : ℕ} {p : Party n} {V : Finset Bool} (h : p.confExit f = some V) :
    (∃ v, V = {v} ∧ v ∈ p.binValues p.r ∧ n - f ≤ (p.confValues p.r [v]).card) ∨
    (V = {false, true} ∧ (∀ v ∈ p.binValues p.r, (p.confValues p.r [v]).card < n - f) ∧
      n - f ≤ p.confSum p.r) := by
  unfold confExit at h
  dsimp only at h
  split at h
  · next hc => exact .inl ⟨true, (Option.some.inj h).symm, hc.1, hc.2⟩
  · next ht =>
    split at h
    · next hc => exact .inl ⟨false, (Option.some.inj h).symm, hc.1, hc.2⟩
    · next hff =>
      split at h
      · next hc =>
        refine .inr ⟨(Option.some.inj h).symm, fun v hv => ?_, hc⟩
        rw [← not_le]
        intro hle
        cases v
        · exact hff ⟨hv, hle⟩
        · exact ht ⟨hv, hle⟩
      · cases h

/-- the third test succeeds with both bits only: one bit alone would have passed its own test -/
theorem confSum_both {f : ℕ} {p : Party n} (hne : p.binValues p.r ≠ ∅)
    (h1 : ∀ v ∈ p.binValues p.r, (p.confValues p.r [v]).card < n - f)
    (h2 : n - f ≤ p.confSum p.r) (v : Bool) : v ∈ p.binValues p.r := by
  rw [confSum_eq] at h2
  have ht := h1 true
  have hff := h1 false
  by_cases hb0 : false ∈ p.binValues p.r <;> by_cases hb1 : true ∈ p.binValues p.r <;>
    simp only [hb0, hb1, true_and, false_and, and_true, if_true, if_false, forall_const] at h2 ht hff
  · cases v <;> assumption
  · omega
  · omega
  · refine absurd (Finset.eq_empty_of_forall_notMem fun b => ?_) hne
    cases b <;> assumption

/-- three tests in a row that all fail -/
theorem tests_eq_none {α : Type} {a b c : Prop} [Decidable a] [Decidable b] [Decidable c]
    {x y z : α} : (if a then some x else if b then some y else if c then some z else none) = none ↔
      ¬ a ∧ ¬ b ∧ ¬ c := by
  by_cases ha : a <;> by_cases hb : b <;> by_cases hc : c <;> simp [ha, hb, hc]

theorem auxExit_eq_none {f : ℕ} {p : Party n} : p.auxExit f = none ↔
    ¬ (true ∈ p.binValues p.r ∧ n - f ≤ (p.auxValues p.r true).card) ∧
    ¬ (false ∈ p.binValues p.r ∧ n - f ≤ (p.auxValues p.r false).card) ∧
    ¬ n - f ≤ ∑ v ∈ p.binValues p.r, (p.auxValues p.r v).card :=
  tests_eq_none

theorem confExit_eq_none {f : ℕ} {p : Party n} : p.confExit f = none ↔
    ¬ (true ∈ p.binValues p.r ∧ n - f ≤ (p.confValues p.r [true]).card) ∧
    ¬ (false ∈ p.binValues p.r ∧ n - f ≤ (p.confValues p.r [false]).card) ∧
    ¬ n - f ≤ p.confSum p.r :=
  tests_eq_none

/-! ## the call -/

/-- the test at which the main loop waits fails -/
def Waiting (f : ℕ) (p : Party n) : Prop :=
  match p.pc with
  | .bin => p.binValues p.r = ∅
  | .aux => p.auxExit f = none
  | .conf => p.confExit f = none
  | _ => False

theorem Waiting.cases {f : ℕ} {p : Party n} (h : p.Waiting f) :
    (p.pc = .bin ∧ p.binValues p.r = ∅) ∨ (p.pc = .aux ∧ p.auxExit f = none) ∨
      (p.pc = .conf ∧ p.confExit f = none) := by
  unfold Waiting at h
  split at h
  · next hpc => exact .inl ⟨hpc, h⟩
  · next hpc => exact .inr (.inl ⟨hpc, h⟩)
  · next hpc => exact .inr (.inr ⟨hpc, h⟩)
  · exact h.elim

/-- what the main loop has in hand -/
structure Current (f : ℕ) (p : Party n) : Prop where
  input : p.pc = .input → p.r = 0 ∧ p.alreadyDecided = none
  est : p.pc = .top → p.EstFrom p.r p.est
  coin : ∀ V, p.pc = .coin V → .confReturn p.r V ∈ p.trace
  confSent : ∀ r c, p.confSent r c = true → p.Past r 3
  decisions : p.decisions = p.alreadyDecided.toList
  decided : ∀ v, p.alreadyDecided = some v →
    ∃ r, r < p.r ∧ .confReturn r {v} ∈ p.trace ∧ .received r v ∈ p.trace
  returned : p.pc = .returned → ∃ v, p.alreadyDecided = some v ∧
    .confReturn p.r {v} ∈ p.trace ∧ .received p.r v ∈ p.trace
  asleep : p.parked = true → p.bvSignal = false → p.Waiting f
  awake : p.parked = true → p.pc = .bin ∨ p.pc = .aux ∨ p.pc = .conf

/-- the EST table, the relay and `bin_values` keep step with each other -/
structure EstTable (f : ℕ) (p : Party n) : Prop where
  bin_iff : ∀ r v, v ∈ p.binValues r ↔ 2 * f + 1 ≤ (p.estValues r v).card
  relayed : ∀ r v, f + 1 ≤ (p.estValues r v).card → p.estSent r v = true
  sent : ∀ r v, p.estSent r v = true → .broadcast (.EST r v) ∈ p.trace

/-- the invariant of a call of `binaryagreement` -/
structure Call (f : ℕ) (p : Party n) : Prop where
  ordered : p.Ordered
  backed : ∀ o ∈ p.trace, p.Backed f o
  current : p.Current f
  table : p.EstTable f
  nodup : p.sent.Nodup
  killed : p.recvLoop = .killed ↔ p.pc = .returned

theorem mem_sent {p : Party n} {m : Msg} : m ∈ p.sent ↔ .broadcast m ∈ p.trace := by
  unfold sent
  rw [List.mem_filterMap]
  constructor
  · rintro ⟨o, ho, hm⟩
    cases o <;> simp only [outMsg, reduceCtorEq, Option.some.injEq] at hm
    exact hm ▸ ho
  · exact fun h => ⟨_, h, rfl⟩

/-! ### the points of a round -/

section
variable {p : Party n} (h : p.Ordered) {r : ℤ}
include h

theorem Ordered.entry {k : ℕ} (hk : 1 ≤ k ∧ k ≤ 5) (hp : p.Past r k) :
    ∃ o ∈ p.trace, o.mark = some (r, k) :=
  List.mem_filterMap.mp ((h.mem_iff r k).mpr ⟨hk.1, hk.2, hp⟩)

theorem Ordered.starting (hp : p.Past r 1) : ∃ e, .starting r e ∈ p.trace := by
  obtain ⟨o, ho, hm⟩ := h.entry (by decide) hp
  unfold Out.mark at hm
  split at hm <;> cases hm
  exact ⟨_, ho⟩

theorem Ordered.aux (hp : p.Past r 2) : ∃ w, .AUX r w ∈ p.sent := by
  obtain ⟨o, ho, hm⟩ := h.entry (by decide) hp
  unfold Out.mark at hm
  split at hm <;> cases hm
  exact ⟨_, mem_sent.mpr ho⟩

theorem Ordered.conf (hp : p.Past r 3) : ∃ c, .CONF r c ∈ p.sent := by
  obtain ⟨o, ho, hm⟩ := h.entry (by decide) hp
  unfold Out.mark at hm
  split at hm <;> cases hm
  exact ⟨_, mem_sent.mpr ho⟩

theorem Ordered.confReturn (hp : p.Past r 4) : ∃ V, .confReturn r V ∈ p.trace := by
  obtain ⟨o, ho, hm⟩ := h.entry (by decide) hp
  unfold Out.mark at hm
  split at hm <;> cases hm
  exact ⟨_, ho⟩

theorem Ordered.received (hp : p.Past r 5) : ∃ b, .received r b ∈ p.trace := by
  obtain ⟨o, ho, hm⟩ := h.entry (by decide) hp
  unfold Out.mark at hm
  split at hm <;> cases hm
  exact ⟨_, ho⟩

end

/-- after the first test of a round there is a bit in `bin_values` -/
theorem Call.bin_ne {f : ℕ} {p : Party n} (h : Call f p) (hpc : 3 ≤ p.pc.stage) :
    p.binValues p.r ≠ ∅ := by
  obtain ⟨w, hw⟩ := h.ordered.aux ⟨h.ordered.nonneg, .inr ⟨rfl, hpc⟩⟩
  exact Finset.ne_empty_of_mem (h.backed _ (mem_sent.mp hw))

theorem Call.init {f : ℕ} : Call f (Party.init : Party n) where
  ordered := ⟨le_refl _, List.nodup_nil, fun r k => by
    simp [marks, Party.init, Past, Pc.stage]⟩
  backed _ h := by cases h
  current :=
    { input := fun _ => ⟨rfl, rfl⟩
      est := by intro h; cases h
      coin := by intro V h; cases h
      confSent := by intro r c h; cases h
      decisions := rfl
      decided := by intro v h; cases h
      returned := by intro h; cases h
      asleep := by intro h; cases h
      awake := by intro h; cases h }
  table :=
    { bin_iff := by intro r v; simp [Party.init]
      relayed := by intro r v h; simp [Party.init] at h
      sent := by intro r v h; cases h }
  nodup := List.nodup_nil
  killed := by simp [Party.init]

/-! ### arrivals -/

theorem recv_marks (f : ℕ) (sender : Fin n) (m : Msg) (p : Party n) :
    (p.recv f sender m).marks = p.marks := by
  unfold marks
  rcases recv_trace f sender m p with h | ⟨r, v, h, -⟩ <;> rw [h]
  rfl

theorem recv_decisions (f : ℕ) (sender : Fin n) (m : Msg) (p : Party n) :
    (p.recv f sender m).decisions = p.decisions := by
  unfold decisions
  rcases recv_trace f sender m p with h | ⟨r, v, h, -⟩ <;> rw [h]
  rfl

/-- a message that leaves the signal unset leaves the tests of the main loop alone -/
theorem recv_quiet {f : ℕ} {sender : Fin n} {m : Msg} {p : Party n}
    (h : (p.recv f sender m).bvSignal = false) :
    p.bvSignal = false ∧ (p.recv f sender m).binValues = p.binValues ∧
      (p.recv f sender m).auxValues = p.auxValues ∧
      (p.recv f sender m).confValues = p.confValues := by
  rcases recv_cases f sender m p with ⟨e, -, -, he, -⟩ | ⟨r, v, -, -, he⟩ | ⟨r, v, -, -, he⟩ |
    ⟨r, c, -, -, -, he⟩ <;> rw [he] at h ⊢
  · exact ⟨h, rfl, rfl, rfl⟩
  · unfold outputEst at h ⊢
    split at h
    · cases h
    · next hc =>
      rw [if_neg hc]
      refine ⟨?_, relayEst_binValues .., relayEst_auxValues .., relayEst_confValues ..⟩
      unfold relayEst at h
      split at h <;> exact h
  · cases h
  · cases h

theorem Waiting.congr {f : ℕ} {p p' : Party n} (hpc : p'.pc = p.pc) (hr : p'.r = p.r)
    (hb : p'.binValues = p.binValues) (ha : p'.auxValues = p.auxValues)
    (hc : p'.confValues = p.confValues) (h : p.Waiting f) : p'.Waiting f := by
  unfold Waiting auxExit confExit confSum at h ⊢
  rw [hpc, hr, hb, ha, hc]
  exact h

theorem EstTable.recv {f : ℕ} {p : Party n} (h : p.EstTable f) (sender : Fin n) (m : Msg) :
    (p.recv f sender m).EstTable f := by
  rcases recv_cases f sender m p with ⟨e, -, -, he, -⟩ | ⟨r, v, -, hs, he⟩ | ⟨r, v, -, -, he⟩ |
    ⟨r, c, -, -, -, he⟩ <;> rw [he]
  · exact ⟨h.bin_iff, h.relayed, h.sent⟩
  · have hput : ∀ r' v', put p.estValues r v (insert sender (p.estValues r v)) r' v' =
        if r' = r ∧ v' = v then insert sender (p.estValues r v) else p.estValues r' v' :=
      fun r' v' => put_apply ..
    have hcard : (insert sender (p.estValues r v)).card = (p.estValues r v).card + 1 :=
      Finset.card_insert_of_notMem hs
    refine ⟨fun r' v' => ?_, fun r' v' => ?_, fun r' v' hsent => ?_⟩
    · have hold := h.bin_iff r' v'
      simp only [outputEst_binValues, outputEst_estValues, relayEst_estValues, relayEst_binValues,
        hput, and_self, if_true]
      by_cases hr : r' = r
      · subst hr
        by_cases hv : v' = v
        · subst hv
          simp only [true_and, and_self, if_true]
          split
          · next hc => simp [hc]
          · next hc => rw [hold]; omega
        · simp only [hv, true_and, and_false, if_false]
          split
          · rw [Finset.mem_insert, hold]; simp [hv]
          · exact hold
      · simp only [hr, false_and, if_false]
        exact hold
    · have hold := h.relayed r' v'
      simp only [outputEst_estValues, outputEst_estSent, relayEst_estValues, relayEst_estSent,
        hput, and_self, if_true]
      by_cases hrv : r' = r ∧ v' = v
      · simp only [hrv, and_self, if_true, true_and]
        intro hc
        rw [if_pos hc]
      · simp only [hrv, if_false, false_and]
        exact hold
    · rw [outputEst_trace]
      rw [outputEst_estSent] at hsent
      refine relayEst_sent f r v _ ?_ r' v' hsent
      exact h.sent
  · exact ⟨h.bin_iff, h.relayed, h.sent⟩
  · exact ⟨h.bin_iff, h.relayed, h.sent⟩

theorem Current.recv {f : ℕ} {p : Party n} (h : p.Current f) (sender : Fin n) (m : Msg) :
    (p.recv f sender m).Current f := by
  have hs := recv_sameMain f sender m p
  have hg := recv_grows f sender m p
  refine
    { input := fun hpc => ?_
      est := fun hpc => ?_
      coin := fun V hpc => ?_
      confSent := fun r c hc => ?_
      decisions := ?_
      decided := fun v hv => ?_
      returned := fun hpc => ?_
      asleep := fun hp hb => ?_
      awake := fun hp => ?_ }
  · rw [hs.r, hs.alreadyDecided]
    exact h.input (hs.pc ▸ hpc)
  · rw [hs.r, hs.est]
    exact (h.est (hs.pc ▸ hpc)).mono hg.trace
  · rw [hs.r]
    exact hg.trace (h.coin V (hs.pc ▸ hpc))
  · have := h.confSent r c (hs.confSent ▸ hc)
    rwa [Past, hs.r, hs.pc]
  · rw [recv_decisions, hs.alreadyDecided]
    exact h.decisions
  · obtain ⟨r, h1, h2, h3⟩ := h.decided v (hs.alreadyDecided ▸ hv)
    exact ⟨r, hs.r ▸ h1, hg.trace h2, hg.trace h3⟩
  · obtain ⟨v, h1, h2, h3⟩ := h.returned (hs.pc ▸ hpc)
    rw [hs.r, hs.alreadyDecided]
    exact ⟨v, h1, hg.trace h2, hg.trace h3⟩
  · obtain ⟨h1, h2, h3, h4⟩ := recv_quiet hb
    exact (h.asleep (hs.parked ▸ hp) h1).congr hs.pc hs.r h2 h3 h4
  · rw [hs.pc]
    exact h.awake (hs.parked ▸ hp)

/-- **step lemma, arrivals** -/
theorem Call.recv {f : ℕ} {p : Party n} (h : Call f p) (hrun : p.recvLoop = .running)
    (sender : Fin n) (m : Msg) : Call f (p.recv f sender m) := by
  have hs := recv_sameMain f sender m p
  have hg := recv_grows f sender m p
  refine
    { ordered := h.ordered.congr hs.r (by rw [hs.pc]) (recv_marks f sender m p)
      backed := fun o ho => ?_
      current := h.current.recv sender m
      table := h.table.recv sender m
      nodup := ?_
      killed := ?_ }
  · rcases recv_trace f sender m p with ht | ⟨r, v, ht, -, h1, h2⟩ <;> rw [ht] at ho
    · exact (h.backed o ho).mono hg
    · rcases List.mem_cons.mp ho with rfl | ho
      · exact ⟨h1, .inr h2⟩
      · exact (h.backed o ho).mono hg
  · rcases recv_trace f sender m p with ht | ⟨r, v, ht, h1, -, -⟩
    · rw [sent, ht]; exact h.nodup
    · rw [sent, ht]
      refine List.nodup_cons.mpr ⟨fun hmem => ?_, h.nodup⟩
      have hb := h.backed _ (mem_sent.mp hmem)
      rw [hb.1] at h1
      cases h1
  · rw [hs.pc, ← h.killed]
    rcases recv_cases f sender m p with ⟨e, he1, he2, he, -⟩ | ⟨r, v, -, -, he⟩ | ⟨r, v, -, -, he⟩ |
      ⟨r, c, -, -, -, he⟩ <;> rw [he]
    · rw [hrun]
      exact ⟨fun h => absurd h he2, fun h => by cases h⟩
    · rw [outputEst_recvLoop, relayEst_recvLoop]

/-! ### the main loop -/

/-- a message that is new to the trace keeps the sent messages distinct -/
theorem sent_cons_nodup {p : Party n} (h : p.sent.Nodup) {m : Msg} (hm : .broadcast m ∉ p.trace) :
    ((Out.broadcast m :: p.trace).filterMap outMsg).Nodup :=
  List.nodup_cons.mpr ⟨fun hmem => hm (mem_sent.mp hmem), h⟩

/-- the loop is not past its own point -/
theorem not_past {p : Party n} : ¬ p.Past p.r p.pc.stage := by
  unfold Past
  omega

theorem Call.fresh {f : ℕ} {p : Party n} (h : Call f p) {o : Out}
    (ho : o.mark = some (p.r, p.pc.stage)) : o ∉ p.trace :=
  fun hmem => not_past (h.ordered.past hmem ho)

/-- clearing the signal and waiting, at a test that fails -/
theorem Call.wait {f : ℕ} {p : Party n} (h : Call f p) (hw : p.Waiting f)
    (hpc : p.pc = .bin ∨ p.pc = .aux ∨ p.pc = .conf) : Call f p.wait where
  ordered := h.ordered.congr rfl rfl rfl
  backed o ho := (h.backed o ho).mono { Grows.refl p with }
  current :=
    { input := h.current.input
      est := h.current.est
      coin := h.current.coin
      confSent := h.current.confSent
      decisions := h.current.decisions
      decided := h.current.decided
      returned := h.current.returned
      asleep := fun _ _ => hw.congr rfl rfl rfl rfl rfl
      awake := fun _ => hpc }
  table := ⟨h.table.bin_iff, h.table.relayed, h.table.sent⟩
  nodup := h.nodup
  killed := h.killed

theorem EstTable.congr {f : ℕ} {p p' : Party n} (h : p.EstTable f)
    (he : p'.estValues = p.estValues) (hb : p'.binValues = p.binValues)
    (hs : p'.estSent = p.estSent) (ht : p.trace ⊆ p'.trace) : p'.EstTable f := by
  refine ⟨?_, ?_, ?_⟩
  · rw [he, hb]; exact h.bin_iff
  · rw [he, hs]; exact h.relayed
  · rw [hs]; exact fun r v hv => ht (h.sent r v hv)

/-- the main loop goes on to a later test of the same round -/
theorem Current.advance {f : ℕ} {p p' : Party n} (h : p.Current f) (hg : p.Grows p')
    (hr : p'.r = p.r) (hp : p'.parked = false) (had : p'.alreadyDecided = p.alreadyDecided)
    (hd : p'.decisions = p.decisions) (hpc : p.pc.stage ≤ p'.pc.stage)
    (hin : p'.pc ≠ .input) (htop : p'.pc ≠ .top) (hret : p'.pc ≠ .returned)
    (hcoin : ∀ V, p'.pc = .coin V → .confReturn p.r V ∈ p'.trace)
    (hcs : ∀ r c, p'.confSent r c = true → p.confSent r c = true ∨ p'.Past r 3) :
    p'.Current f where
  input e := absurd e hin
  est e := absurd e htop
  coin V e := hr ▸ hcoin V e
  confSent r c hc := by
    rcases hcs r c hc with hc | hc
    · have h3 := h.confSent r c hc
      unfold Past at h3 ⊢
      omega
    · exact hc
  decisions := by rw [hd, had]; exact h.decisions
  decided v hv := by
    obtain ⟨r, h1, h2, h3⟩ := h.decided v (had ▸ hv)
    exact ⟨r, hr ▸ h1, hg.trace h2, hg.trace h3⟩
  returned e := absurd e hret
  asleep e := by rw [hp] at e; cases e
  awake e := by rw [hp] at e; cases e

theorem Call.notKilled {f : ℕ} {p : Party n} (h : Call f p) (hpc : p.pc ≠ .returned) :
    p.recvLoop ≠ .killed := fun hk => hpc (h.killed.mp hk)

/-- **the main loop goes on in its round**: what is left to show of a step is what stands behind the
new entries of the trace, the relays and the messages -/
theorem Call.advance {f : ℕ} {p p' : Party n} (h : Call f p) (hg : p.Grows p') (hr : p'.r = p.r)
    (hp : p'.parked = false) (had : p'.alreadyDecided = p.alreadyDecided)
    (hd : p'.decisions = p.decisions) (hloop : p'.recvLoop = p.recvLoop)
    (hmarks : p'.marks = (p.r, p.pc.stage) :: p.marks)
    (hstage : 1 ≤ p.pc.stage ∧ p'.pc.stage = p.pc.stage + 1) (hret : p'.pc ≠ .returned)
    (hcoin : ∀ V, p'.pc = .coin V → .confReturn p.r V ∈ p'.trace)
    (hcs : ∀ r c, p'.confSent r c = true → p.confSent r c = true ∨ p'.Past r 3)
    (hbacked : ∀ o ∈ p'.trace, o ∉ p.trace → p'.Backed f o) (htable : p'.EstTable f)
    (hnodup : p'.sent.Nodup) : Call f p' := by
  obtain ⟨h1, h2⟩ := hstage
  have hlast : p'.pc.stage ≤ 5 := by
    cases hpc : p'.pc with
    | returned => exact absurd hpc hret
    | coin V => exact le_refl 5
    | _ => decide
  have hpc : p.pc ≠ .returned := fun e => by
    rw [e] at h2
    change _ = 6 + 1 at h2
    omega
  refine
    { ordered := h.ordered.advance hmarks ⟨h1, by omega⟩ (.inl ⟨hr, h2⟩)
      backed := fun o ho => ?_
      current := h.current.advance hg hr hp had hd (by omega) (fun e => ?_) (fun e => ?_) hret hcoin
        hcs
      table := htable
      nodup := hnodup
      killed := ⟨fun hk => absurd (hloop ▸ hk) (h.notKilled hpc), fun e => absurd e hret⟩ }
  · by_cases hold : o ∈ p.trace
    · exact (h.backed o hold).mono hg
    · exact hbacked o ho hold
  · rw [e] at h2
    cases h2
  · rw [e] at h2
    change 1 = _ at h2
    omega

/-- the round starts: its estimate is logged, and sent unless the relay has done so -/
theorem Call.startRound {f : ℕ} {p : Party n} (h : Call f p) (hpc : p.pc = .top) :
    Call f p.startRound := by
  have hg := startRound_grows p
  have hest := h.current.est hpc
  have hstage : 1 ≤ p.pc.stage ∧ Pc.bin.stage = p.pc.stage + 1 := by rw [hpc]; decide
  cases hs : p.estSent p.r p.est with
  | true =>
    have e : p.startRound =
        { p with trace := .starting p.r p.est :: p.trace, pc := .bin, parked := false } := by
      simp [Party.startRound, emit, goto, hs]
    rw [e] at hg ⊢
    refine h.advance hg rfl rfl rfl rfl rfl (by rw [hpc]; rfl) hstage (fun h => by cases h)
      (fun _ h => by cases h) (fun _ _ => .inl) (fun o ho hnew => ?_)
      (h.table.congr rfl rfl rfl hg.trace) h.nodup
    rcases List.mem_cons.mp ho with rfl | ho
    · exact ⟨hest.mono hg.trace, hs⟩
    · exact absurd ho hnew
  | false =>
    have e : p.startRound =
        { p with
          estSent := put p.estSent p.r p.est true
          trace := .broadcast (.EST p.r p.est) :: .starting p.r p.est :: p.trace
          pc := .bin
          parked := false } := by
      simp [Party.startRound, emit, goto, broadcast, hs]
    have hput : put p.estSent p.r p.est true p.r p.est = true := by simp [put_apply]
    have hnew : Out.broadcast (.EST p.r p.est) ∉ p.trace := fun hmem => by
      have := (h.backed _ hmem).1
      rw [hs] at this
      cases this
    rw [e] at hg ⊢
    refine h.advance hg rfl rfl rfl rfl rfl (by rw [hpc]; rfl) hstage (fun h => by cases h)
      (fun _ h => by cases h) (fun _ _ => .inl) (fun o ho hold => ?_) ?_
      (sent_cons_nodup h.nodup hnew)
    · rcases List.mem_cons.mp ho with rfl | ho
      · exact ⟨hput, .inl (List.mem_cons_of_mem _ List.mem_cons_self)⟩
      · rcases List.mem_cons.mp ho with rfl | ho
        · exact ⟨hest.mono hg.trace, hput⟩
        · exact absurd ho hold
    · refine ⟨h.table.bin_iff, fun r v hc => put_true _ _ _ r v (h.table.relayed r v hc),
        fun r v hrv => ?_⟩
      replace hrv : put p.estSent p.r p.est true r v = true := hrv
      rw [put_apply] at hrv
      split at hrv
      · next hc => rw [hc.1, hc.2]; exact List.mem_cons_self
      · exact hg.trace (h.table.sent r v hrv)

/-- the AUX message of the round is sent, with a bit of `bin_values` -/
theorem Call.checkBin {f : ℕ} {p : Party n} (h : Call f p) (hpc : p.pc = .bin) :
    Call f p.checkBin := by
  have hg := checkBin_grows p
  have hstage : 1 ≤ p.pc.stage ∧ Pc.aux.stage = p.pc.stage + 1 := by rw [hpc]; decide
  by_cases hb : p.binValues p.r = ∅
  · have e : p.checkBin = p.wait := by simp [Party.checkBin, hb]
    rw [e]
    refine h.wait ?_ (.inl hpc)
    rw [Waiting, hpc]
    exact hb
  · have e : p.checkBin =
        { p with
          trace := .broadcast (.AUX p.r (nextIter (p.binValues p.r))) :: p.trace
          pc := .aux
          parked := false } := by
      simp [Party.checkBin, emit, goto, broadcast, hb]
    rw [e] at hg ⊢
    refine h.advance hg rfl rfl rfl rfl rfl (by rw [hpc]; rfl) hstage (fun h => by cases h)
      (fun _ h => by cases h) (fun _ _ => .inl) (fun o ho hold => ?_)
      (h.table.congr rfl rfl rfl hg.trace) (sent_cons_nodup h.nodup (h.fresh (by rw [hpc]; rfl)))
    rcases List.mem_cons.mp ho with rfl | ho
    · exact nextIter_mem hb
    · exact absurd ho hold

/-- the AUX loop ends: the CONF message of the round is sent, with the bits of `bin_values` -/
theorem Call.checkAux {f : ℕ} {p : Party n} (h : Call f p) (hpc : p.pc = .aux) :
    Call f (p.checkAux f) := by
  have hg := checkAux_grows f p
  have hstage : 1 ≤ p.pc.stage ∧ Pc.conf.stage = p.pc.stage + 1 := by rw [hpc]; decide
  cases hx : p.auxExit f with
  | none =>
    have e : p.checkAux f = p.wait := by simp [Party.checkAux, hx]
    rw [e]
    refine h.wait ?_ (.inr (.inl hpc))
    rw [Waiting, hpc]
    exact hx
  | some V =>
    -- `conf_sent[r]` is set here only, so it is clear
    have hcs : p.confSent p.r (iter V) = false := by
      cases hc : p.confSent p.r (iter V) with
      | false => rfl
      | true =>
        have := h.current.confSent p.r (iter V) hc
        unfold Past at this
        rw [hpc, Pc.stage] at this
        omega
    have e : p.checkAux f =
        { p with
          confSent := put p.confSent p.r (iter V) true
          trace := .broadcast (.CONF p.r (iter (p.binValues p.r))) :: p.trace
          pc := .conf
          parked := false } := by
      simp [Party.checkAux, hx, emit, goto, broadcast, hcs]
    have hne : p.binValues p.r ≠ ∅ := h.bin_ne (by rw [hpc]; decide)
    rw [e] at hg ⊢
    refine h.advance hg rfl rfl rfl rfl rfl (by rw [hpc]; rfl) hstage (fun h => by cases h)
      (fun _ h => by cases h) (fun r c hc => ?_) (fun o ho hold => ?_)
      (h.table.congr rfl rfl rfl hg.trace) (sent_cons_nodup h.nodup (h.fresh (by rw [hpc]; rfl)))
    · replace hc : put p.confSent p.r (iter V) true r c = true := hc
      rw [put_apply] at hc
      split at hc
      · next hrc => exact .inr ⟨hrc.1 ▸ h.ordered.nonneg, .inr ⟨hrc.1, Nat.lt_succ_self 3⟩⟩
      · exact .inl hc
    · rcases List.mem_cons.mp ho with rfl | ho
      · exact ⟨p.binValues p.r, hne, subset_rfl, rfl, fun v hv => auxExit_single hx hv⟩
      · exact absurd ho hold

/-- `wait_for_conf_values` returns, and the coin is called -/
theorem Call.checkConf {f : ℕ} {p : Party n} (h : Call f p) (hpc : p.pc = .conf) :
    Call f (p.checkConf f) := by
  have hg := checkConf_grows f p
  have hne : p.binValues p.r ≠ ∅ := h.bin_ne (by rw [hpc]; decide)
  cases hx : p.confExit f with
  | none =>
    have e : p.checkConf f = p.wait := by simp [Party.checkConf, hx]
    rw [e]
    refine h.wait ?_ (.inr (.inr hpc))
    rw [Waiting, hpc]
    exact hx
  | some V =>
    have e : p.checkConf f =
        { p with
          trace := .coin p.r :: .confReturn p.r V :: p.trace
          pc := .coin V
          parked := false } := by
      simp [Party.checkConf, hx, emit, goto, callCoin]
    rw [e] at hg ⊢
    have hstage : 1 ≤ p.pc.stage ∧ (Pc.coin V).stage = p.pc.stage + 1 := by
      rw [hpc]
      exact ⟨Nat.le_add_left 1 3, rfl⟩
    refine h.advance hg rfl rfl rfl rfl rfl (by rw [hpc]; rfl) hstage (fun h => by cases h)
      (fun W hW => by cases hW; exact List.mem_cons_of_mem _ List.mem_cons_self) (fun _ _ => .inl)
      (fun o ho hold => ?_) (h.table.congr rfl rfl rfl hg.trace) h.nodup
    rcases List.mem_cons.mp ho with rfl | ho
    · exact trivial
    · rcases List.mem_cons.mp ho with rfl | ho
      · exact (confExit_cases hx).imp_right fun h => ⟨h.1, confSum_both hne h.2.1 h.2.2⟩
      · exact absurd ho hold

/-! ### the coin's answer -/

theorem setNewEstimate_cases (V : Finset Bool) (s : Bool) (d : Option Bool) :
    (∃ v, V.card = 1 ∧ v = nextIter V ∧ v = s ∧ d = some v ∧
      setNewEstimate V s d = .abandonedNodeError) ∨
    (∃ v, V.card = 1 ∧ v = nextIter V ∧ v = s ∧ d = none ∧
      setNewEstimate V s d = .next v (some v) (some v)) ∨
    (∃ v, V.card = 1 ∧ v = nextIter V ∧ setNewEstimate V s d = .next v d none) ∨
    (V.card ≠ 1 ∧ setNewEstimate V s d = .next s d none) := by
  by_cases hV : V.card = 1
  · by_cases hs : nextIter V = s
    · cases d with
      | none => exact .inr (.inl ⟨_, hV, rfl, hs, rfl, by simp [setNewEstimate, hV, hs]⟩)
      | some x =>
        by_cases hx : x = nextIter V
        · exact .inl ⟨_, hV, rfl, hs, by rw [hx], by simp [setNewEstimate, hV, hs, hx]⟩
        · refine .inr (.inr (.inl ⟨_, hV, rfl, ?_⟩))
          rw [hs] at hx
          simp [setNewEstimate, hV, hs, hx]
    · exact .inr (.inr (.inl ⟨_, hV, rfl, by simp [setNewEstimate, hV, hs]⟩))
  · exact .inr (.inr (.inr ⟨hV, by simp [setNewEstimate, hV]⟩))

theorem eq_singleton_nextIter {V : Finset Bool} (h : V.card = 1) : V = {nextIter V} := by
  revert h
  revert V
  decide

/-- only in its waits the main loop is parked -/
theorem not_parked {p : Party n}
    (h : p.parked = true → p.pc = .bin ∨ p.pc = .aux ∨ p.pc = .conf)
    (hpc : p.pc ≠ .bin ∧ p.pc ≠ .aux ∧ p.pc ≠ .conf) : p.parked = false := by
  cases hp : p.parked with
  | false => rfl
  | true =>
    obtain ⟨h1, h2, h3⟩ := hpc
    rcases h hp with e | e | e
    · exact absurd e h1
    · exact absurd e h2
    · exact absurd e h3

theorem Current.notParked {f : ℕ} {p : Party n} (h : p.Current f) {V : Finset Bool}
    (hpc : p.pc = .coin V) : p.parked = false :=
  not_parked h.awake (by simp [hpc])

/-- the CONF messages that `conf_sent` knows are those up to the current round -/
theorem Current.confSent_le {f : ℕ} {p : Party n} (h : p.Current f) {V : Finset Bool}
    (hpc : p.pc = .coin V) {r : ℤ} {c : List Bool} (hc : p.confSent r c = true) :
    0 ≤ r ∧ r ≤ p.r := by
  obtain ⟨hnn, hpast⟩ := h.confSent r c hc
  rw [hpc, Pc.stage] at hpast
  omega

/-- the round ends with the estimate `e`, after `decide` was called with the bit of `dec`, if any -/
def endRound (e : Bool) (d dec : Option Bool) (s : Bool) (p : Party n) : Party n :=
  { p with
    est := e
    alreadyDecided := d
    r := p.r + 1
    pc := .top
    trace := dec.toList.map .decide ++ .received p.r s :: p.trace }

section
variable {f : ℕ} {p : Party n} {V : Finset Bool} {e s : Bool} {d dec : Option Bool}

theorem endRound_subset : p.trace ⊆ (p.endRound e d dec s).trace :=
  fun _ ho => List.mem_append_right _ (List.mem_cons_of_mem _ ho)

theorem endRound_received : .received p.r s ∈ (p.endRound e d dec s).trace :=
  List.mem_append_right _ List.mem_cons_self

theorem endRound_marks : (p.endRound e d dec s).marks = (p.r, 5) :: p.marks := by
  cases dec <;> rfl

theorem endRound_sent : (p.endRound e d dec s).sent = p.sent := by
  cases dec <;> rfl

theorem endRound_decisions :
    (p.endRound e d dec s).decisions = dec.toList ++ p.decisions := by
  cases dec <;> rfl

variable (hpc : p.pc = .coin V) (he : V = {e} ∨ V = {false, true} ∧ e = s)
  (hd : dec = none ∧ d = p.alreadyDecided ∨
    p.alreadyDecided = none ∧ ∃ v, dec = some v ∧ d = some v ∧ V = {v} ∧ v = s)
include hpc he hd

theorem Current.endRound (h : p.Current f) : (p.endRound e d dec s).Current f := by
  have hret : Out.confReturn p.r V ∈ (p.endRound e d dec s).trace :=
    endRound_subset (h.coin V hpc)
  refine
    { input := fun h => by cases h
      est := fun _ => ?_
      coin := fun _ h => by cases h
      confSent := fun r c hc => ?_
      decisions := ?_
      decided := fun v hv => ?_
      returned := fun h => by cases h
      asleep := fun hp => ?_
      awake := fun hp => ?_ }
  · have hr : p.r + 1 - 1 = p.r := by omega
    exact .inr ⟨V, s, by rw [Party.endRound, hr]; exact hret,
      by rw [Party.endRound, hr]; exact endRound_received, he⟩
  · obtain ⟨hnn, hle⟩ := h.confSent_le hpc hc
    exact ⟨hnn, .inl (Int.lt_add_one_of_le hle)⟩
  · rw [endRound_decisions, h.decisions]
    rcases hd with ⟨rfl, rfl⟩ | ⟨hn, w, rfl, rfl, -, -⟩
    · rfl
    · rw [hn]
      rfl
  · rcases hd with ⟨rfl, rfl⟩ | ⟨-, w, rfl, rfl, rfl, rfl⟩
    · obtain ⟨r, h1, h2, h3⟩ := h.decided v hv
      exact ⟨r, h1.trans (Int.lt_succ p.r), endRound_subset h2, endRound_subset h3⟩
    · obtain rfl : w = v := Option.some.inj hv
      exact ⟨p.r, Int.lt_succ p.r, hret, endRound_received⟩
  · exact absurd ((h.notParked hpc).symm.trans hp) (by decide)
  · exact absurd ((h.notParked hpc).symm.trans hp) (by decide)

theorem Call.endRound (h : Call f p) : Call f (p.endRound e d dec s) := by
  have hg : p.Grows (p.endRound e d dec s) := { Grows.refl p with trace := endRound_subset }
  have hkill := h.notKilled (by rw [hpc]; exact fun h => by cases h)
  refine
    { ordered := h.ordered.advance (by rw [hpc]; exact endRound_marks)
        (by rw [hpc]; exact ⟨Nat.succ_pos 4, le_refl 5⟩)
        (.inr ⟨by rw [hpc]; rfl, rfl, rfl⟩)
      backed := fun o ho => ?_
      current := h.current.endRound hpc he hd
      table := h.table.congr rfl rfl rfl endRound_subset
      nodup := by rw [endRound_sent]; exact h.nodup
      killed := ⟨fun hk => absurd hk hkill, fun hk => by cases hk⟩ }
  rcases List.mem_append.mp ho with ho | ho
  · -- a bit that `decide` is called with is the one of the round and of its coin
    obtain ⟨v, hv, rfl⟩ := List.mem_map.mp ho
    rcases hd with ⟨rfl, -⟩ | ⟨-, w, rfl, -, rfl, rfl⟩
    · cases hv
    · obtain rfl : v = w := by simpa using hv
      exact ⟨p.r, endRound_subset (h.current.coin _ hpc), endRound_received⟩
  · rcases List.mem_cons.mp ho with rfl | ho
    · exact trivial
    · exact (h.backed o ho).mono hg

end

/-- the call returns through `AbandonedNodeError` -/
def abandon (v : Bool) (p : Party n) : Party n :=
  { p with recvLoop := .killed, pc := .returned, trace := .received p.r v :: p.trace }

section
variable {f : ℕ} {p : Party n} {v : Bool}

theorem abandon_subset : p.trace ⊆ (p.abandon v).trace := List.subset_cons_self _ _

theorem Current.abandon (h : p.Current f) (hpc : p.pc = .coin {v})
    (hd : p.alreadyDecided = some v) : (p.abandon v).Current f := by
  refine
    { input := fun h => by cases h
      est := fun h => by cases h
      coin := fun _ h => by cases h
      confSent := fun r c hc => ?_
      decisions := h.decisions
      decided := fun w hw => ?_
      returned := fun _ => ⟨v, hd, abandon_subset (h.coin _ hpc), List.mem_cons_self⟩
      asleep := fun hp => ?_
      awake := fun hp => ?_ }
  · obtain ⟨hnn, hle⟩ := h.confSent_le hpc hc
    refine ⟨hnn, ?_⟩
    rw [Party.abandon]
    dsimp only [Pc.stage]
    omega
  · obtain ⟨r, h1, h2, h3⟩ := h.decided w hw
    exact ⟨r, h1, abandon_subset h2, abandon_subset h3⟩
  · exact absurd ((h.notParked hpc).symm.trans hp) (by decide)
  · exact absurd ((h.notParked hpc).symm.trans hp) (by decide)

theorem Call.abandon (h : Call f p) (hpc : p.pc = .coin {v}) (hd : p.alreadyDecided = some v) :
    Call f (p.abandon v) := by
  have hg : p.Grows (p.abandon v) := { Grows.refl p with trace := abandon_subset }
  refine
    { ordered := h.ordered.advance (by rw [hpc]; rfl)
        (by rw [hpc]; exact ⟨Nat.succ_pos 4, le_refl 5⟩)
        (.inl ⟨rfl, by rw [hpc]; rfl⟩)
      backed := fun o ho => ?_
      current := h.current.abandon hpc hd
      table := h.table.congr rfl rfl rfl abandon_subset
      nodup := h.nodup
      killed := ⟨fun _ => rfl, fun _ => rfl⟩ }
  rcases List.mem_cons.mp ho with rfl | ho
  · exact trivial
  · exact (h.backed o ho).mono hg

end

theorem Call.afterCoin {f : ℕ} {p : Party n} (h : Call f p) {V : Finset Bool}
    (hpc : p.pc = .coin V) (s : Bool) : Call f (p.afterCoin V s) := by
  rcases setNewEstimate_cases V s p.alreadyDecided with ⟨v, hV, hv, hs, hd, e⟩ |
    ⟨v, hV, hv, hs, hd, e⟩ | ⟨v, hV, hv, e⟩ | ⟨hV, e⟩
  · have hVv : V = {v} := hv ▸ eq_singleton_nextIter hV
    have ep : p.afterCoin V s = p.abandon v := by
      simp [Party.afterCoin, Party.abandon, emit, e, hs]
    rw [ep]
    exact h.abandon (hVv ▸ hpc) hd
  · have hVv : V = {v} := hv ▸ eq_singleton_nextIter hV
    have ep : p.afterCoin V s = p.endRound v (some v) (some v) s := by
      simp [Party.afterCoin, Party.endRound, emit, e]
    rw [ep]
    exact h.endRound hpc (.inl hVv) (.inr ⟨hd, v, rfl, rfl, hVv, hs⟩)
  · have hVv : V = {v} := hv ▸ eq_singleton_nextIter hV
    have ep : p.afterCoin V s = p.endRound v p.alreadyDecided none s := by
      simp [Party.afterCoin, Party.endRound, emit, e]
    rw [ep]
    exact h.endRound hpc (.inl hVv) (.inl ⟨rfl, rfl⟩)
  · have hVb : V = {false, true} := by
      rcases h.backed _ (h.current.coin V hpc) with ⟨v, hv, -⟩ | ⟨hb, -⟩
      · rw [hv, Finset.card_singleton] at hV; exact absurd rfl hV
      · exact hb
    have ep : p.afterCoin V s = p.endRound s p.alreadyDecided none s := by
      simp [Party.afterCoin, Party.endRound, emit, e]
    rw [ep]
    exact h.endRound hpc (.inr ⟨hVb, rfl⟩) (.inl ⟨rfl, rfl⟩)

theorem Call.input {f : ℕ} {p : Party n} (h : Call f p) (hpc : p.pc = .input) (v : Bool) :
    Call f { p with est := v, r := 0, alreadyDecided := none, pc := .top } := by
  obtain ⟨hr, hd⟩ := h.current.input hpc
  have hkill := h.notKilled (by rw [hpc]; exact fun h => by cases h)
  have hpark : p.parked = false := not_parked h.current.awake (by simp [hpc])
  refine
    { ordered := ⟨le_refl _, h.ordered.nodup, fun r k => ?_⟩
      backed := fun o ho => (h.backed o ho).mono { Grows.refl p with }
      current :=
        { input := fun h => by cases h
          est := fun _ => .inl rfl
          coin := fun _ h => by cases h
          confSent := fun r c hc => ?_
          decisions := ?_
          decided := fun _ h => by cases h
          returned := fun h => by cases h
          asleep := fun hp => absurd (hpark.symm.trans hp) (by decide)
          awake := fun hp => absurd (hpark.symm.trans hp) (by decide) }
      table := h.table.congr rfl rfl rfl (List.Subset.refl _)
      nodup := h.nodup
      killed := ⟨fun hk => absurd hk hkill, (fun h => by cases h)⟩ }
  · refine (h.ordered.mem_iff r k).trans ?_
    unfold Past
    rw [hr, hpc]
    dsimp only [Pc.stage]
    omega
  · have h3 := h.current.confSent r c hc
    unfold Past at h3
    rw [hr, hpc, Pc.stage] at h3
    omega
  · rw [← hd]
    exact h.current.decisions

/-- **step lemma, actions** -/
theorem Call.act {f : ℕ} {p p' : Party n} (h : Call f p) {a : Act} (ha : p.act f a = some p') :
    Call f p' := by
  rcases act_cases ha with ⟨v, -, hpc, rfl⟩ | ⟨hpc, -, rfl⟩ | ⟨hpc, -, rfl⟩ | ⟨hpc, -, rfl⟩ |
    ⟨hpc, -, rfl⟩ | ⟨V, s, hpc, -, rfl⟩
  · exact h.input hpc v
  · exact h.startRound hpc
  · exact h.checkBin hpc
  · exact h.checkAux hpc
  · exact h.checkConf hpc
  · exact h.afterCoin hpc s

end Party
end BA
