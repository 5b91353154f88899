import HoneyBadgerBFT.CommonSubset.Invariant

/-!
# Common subset: safety

`Common s` is what the assumptions on the sub-protocols say about a state.  A 0 that an agreement
decides has an honest input 0 behind it, and that has `N-f` agreements that decided 1 behind it, the
same at every party (`not_fewCommitted`); a 1 has an honest output of the broadcast behind it
(`not_noValue`).
-/

namespace ACS
open Async Trans Party

/-! ## what an action does to the greenlets -/

section
variable {n N f : ℕ} {p p' : Party n}

/-- the greenlets are the same, and the inputs that have been given are more -/
def SameThreads (p p' : Party n) : Prop :=
  p'.rThreads = p.rThreads ∧ p'.aThreads = p.aThreads ∧ p.abaIn ⊆ p'.abaIn

theorem provide_same (v : Bool) (p : Party n) (j : Fin n) : SameThreads p (p.provide v j) := by
  unfold Party.provide
  split
  · exact ⟨rfl, rfl, List.Subset.refl _⟩
  · exact ⟨rfl, rfl, List.subset_cons_self _ _⟩

theorem provideAll_same (ks : List (Fin n)) : ∀ p : Party n,
    SameThreads p (ks.foldl (Party.provide false) p) := by
  induction ks with
  | nil => exact fun _ => ⟨rfl, rfl, List.Subset.refl _⟩
  | cons j ks ih =>
    intro p
    obtain ⟨h1, h2, h3⟩ := provide_same false p j
    obtain ⟨h1', h2', h3'⟩ := ih (p.provide false j)
    exact ⟨h1'.trans h1, h2'.trans h2, List.Subset.trans h3 h3'⟩

theorem mainStep_thread (h : p.mainStep N f = some p') (k : Fin n) :
    (p'.rThreads k = p.rThreads k ∨ p'.rThreads k = .killed) ∧ p'.aThreads k = p.aThreads k ∧
      p'.abaIn = p.abaIn := by
  unfold Party.mainStep at h
  split at h
  · split at h
    · obtain rfl := Option.some.inj h
      exact ⟨.inl rfl, rfl, rfl⟩
    · cases h
  · split at h
    · split at h
      · split at h
        · cases h
        · obtain rfl := Option.some.inj h
          exact ⟨.inl rfl, rfl, rfl⟩
      · obtain rfl := Option.some.inj h
        exact ⟨(drop_thread_cases p _ k).imp_right And.right, rfl, rfl⟩
    · obtain rfl := Option.some.inj h
      exact ⟨.inl rfl, rfl, rfl⟩
  · cases h

/-- the greenlets after an action -/
theorem act_thread {a : Act n} (h : p.act N f a = some p') (k : Fin n) :
    (p'.rThreads k = p.rThreads k ∨ (∃ m, a = .rbcOut k m ∧ p'.rThreads k = .done m) ∨
      (a = .rbcRaise k ∧ p'.rThreads k = .raised) ∨ p'.rThreads k = .killed) ∧
    (p'.aThreads k = p.aThreads k ∨ ∃ v, a = .abaOut k v ∧ p'.aThreads k = some v) ∧
    p.abaIn ⊆ p'.abaIn := by
  cases a with
  | rbcOut j m =>
    simp only [Party.act, Party.recvRbc] at h
    split at h
    · obtain rfl := Option.some.inj h
      obtain ⟨h1, h2, h3⟩ := provide_same true { p with
        rbcValues := Function.update p.rbcValues j (some m)
        rThreads := Function.update p.rThreads j (.done m) } j
      rw [h1, h2]
      refine ⟨?_, .inl rfl, h3⟩
      by_cases hk : k = j
      · subst hk
        exact .inr (.inl ⟨m, rfl, Function.update_self ..⟩)
      · exact .inl (Function.update_of_ne hk _ _)
    · cases h
  | rbcRaise j =>
    simp only [Party.act, Party.raiseRbc] at h
    split at h
    · obtain rfl := Option.some.inj h
      refine ⟨?_, .inl rfl, List.Subset.refl _⟩
      by_cases hk : k = j
      · subst hk
        exact .inr (.inr (.inl ⟨rfl, Function.update_self ..⟩))
      · exact .inl (Function.update_of_ne hk _ _)
    · cases h
  | abaOut j v =>
    simp only [Party.act, Party.recvAba] at h
    split at h
    · have hset : SameThreads { p with
          abaValues := Function.update p.abaValues j v
          aThreads := Function.update p.aThreads j (some v) } p' := by
        obtain rfl := Option.some.inj h
        split
        · exact provideAll_same _ _
        · exact ⟨rfl, rfl, List.Subset.refl _⟩
      obtain ⟨h1, h2, h3⟩ := hset
      rw [h1, h2]
      refine ⟨.inl rfl, ?_, h3⟩
      by_cases hk : k = j
      · subst hk
        exact .inr ⟨v, rfl, Function.update_self ..⟩
      · exact .inl (Function.update_of_ne hk _ _)
    · cases h
  | main =>
    obtain ⟨h1, h2, h3⟩ := mainStep_thread h k
    exact ⟨h1.imp_right fun h => .inr (.inr h), .inl h2, h3 ▸ List.Subset.refl _⟩

end

/-! ## what the sub-protocols have answered -/

variable {C : Committee} {s t : State C}

/-- the greenlets of the party `q` after a step -/
theorem next_thread {e : Label C.N Empty (Act C.N)}
    (hn : (protocol C).next (fun _ => true) s e = some t) (q k : Fin C.N) :
    ((t q).st.rThreads k = (s q).st.rThreads k ∨
      (∃ m, e = .act q (.rbcOut k m) ∧ (t q).st.rThreads k = .done m) ∨
      (e = .act q (.rbcRaise k) ∧ (t q).st.rThreads k = .raised) ∨
      (t q).st.rThreads k = .killed) ∧
    ((t q).st.aThreads k = (s q).st.aThreads k ∨
      ∃ v, e = .act q (.abaOut k v) ∧ (t q).st.aThreads k = some v) ∧
    (s q).st.abaIn ⊆ (t q).st.abaIn := by
  rcases next_at hn q with heq | ⟨_, m, -⟩ | ⟨a, x, rfl, -, hx, heq⟩
  · rw [heq]
    exact ⟨.inl rfl, .inl rfl, List.Subset.refl _⟩
  · exact m.elim
  · rw [heq]
    obtain ⟨h1, h2, h3⟩ := act_thread hx k
    refine ⟨h1.imp_right (Or.imp ?_ (Or.imp_left ?_)), h2.imp_right ?_, h3⟩
    · rintro ⟨m, rfl, hm⟩
      exact ⟨m, rfl, hm⟩
    · rintro ⟨rfl, hm⟩
      exact ⟨rfl, hm⟩
    · rintro ⟨v, rfl, hv⟩
      exact ⟨v, rfl, hv⟩

/-- what is assumed of the agreements, step by step -/
def AbaOutputs (s : State C) : Label C.N Empty (Act C.N) → Prop
  | .act _ (.abaOut j v) => (∀ q, C.Honest q → ∀ v' ∈ (s q).st.aThreads j, v' = v) ∧
      ∃ q, C.Honest q ∧ (j, v) ∈ (s q).st.abaIn
  | _ => True

/-- what the assumptions on the agreements say about a state -/
structure Answers (s : State C) : Prop where
  aba : ∀ p q j v v', C.Honest p → C.Honest q → (s p).st.aThreads j = some v →
    (s q).st.aThreads j = some v' → v = v'
  input : ∀ p j v, C.Honest p → (s p).st.aThreads j = some v →
    ∃ q, C.Honest q ∧ (j, v) ∈ (s q).st.abaIn

/-- what the assumptions say about a state -/
structure Common (s : State C) : Prop where
  rbc : ∀ p q j m m', C.Honest p → C.Honest q → (s p).st.rThreads j = .done m →
    (s q).st.rThreads j = .done m' → m = m'
  noRaise : ∀ p q j m, C.Honest p → C.Honest q → (s p).st.rThreads j = .raised →
    (s q).st.rThreads j ≠ .done m
  aba : ∀ p q j v v', C.Honest p → C.Honest q → (s p).st.aThreads j = some v →
    (s q).st.aThreads j = some v' → v = v'
  input : ∀ p j v, C.Honest p → (s p).st.aThreads j = some v →
    ∃ q, C.Honest q ∧ (j, v) ∈ (s q).st.abaIn

/-- an honest output of a broadcast, before the step or in it -/
theorem done_cases {e : Label C.N Empty (Act C.N)}
    (hn : (protocol C).next (fun _ => true) s e = some t) {q j : Fin C.N} {m : Bytes}
    (h : (t q).st.rThreads j = .done m) :
    (s q).st.rThreads j = .done m ∨ e = .act q (.rbcOut j m) := by
  rcases (next_thread hn q j).1 with h' | ⟨m', he, h'⟩ | ⟨-, h'⟩ | h'
  · exact .inl (h'.symm.trans h)
  · obtain rfl := RThread.done.inj (h'.symm.trans h)
    exact .inr he
  · cases h'.symm.trans h
  · cases h'.symm.trans h

theorem raised_cases {e : Label C.N Empty (Act C.N)}
    (hn : (protocol C).next (fun _ => true) s e = some t) {q j : Fin C.N}
    (h : (t q).st.rThreads j = .raised) :
    (s q).st.rThreads j = .raised ∨ e = .act q (.rbcRaise j) := by
  rcases (next_thread hn q j).1 with h' | ⟨m', he, h'⟩ | ⟨he, -⟩ | h'
  · exact .inl (h'.symm.trans h)
  · cases h'.symm.trans h
  · exact .inr he
  · cases h'.symm.trans h

theorem aba_cases {e : Label C.N Empty (Act C.N)}
    (hn : (protocol C).next (fun _ => true) s e = some t) {q j : Fin C.N} {v : Bool}
    (h : (t q).st.aThreads j = some v) :
    (s q).st.aThreads j = some v ∨ e = .act q (.abaOut j v) := by
  rcases (next_thread hn q j).2.1 with h' | ⟨v', he, h'⟩
  · exact .inl (h'.symm.trans h)
  · obtain rfl := Option.some.inj (h'.symm.trans h)
    exact .inr he

theorem output_eq_some {r : RThread} {m : Bytes} (h : r = .done m) : r.output = some m := by
  rw [h]
  rfl

theorem Answers.step (hs : Answers s) {e : Label C.N Empty (Act C.N)} (hok : AbaOutputs s e)
    (hn : (protocol C).next (fun _ => true) s e = some t) : Answers t where
  aba p q j v v' hp hq hv hv' := by
    rcases aba_cases hn hv with h | rfl
    · rcases aba_cases hn hv' with h' | rfl
      · exact hs.aba p q j v v' hp hq h h'
      · exact hok.1 p hp v h
    · rcases aba_cases hn hv' with h' | h'
      · exact (hok.1 q hq v' h').symm
      · cases h'
        rfl
  input p j v hp hv := by
    have hold : ∃ q, C.Honest q ∧ (j, v) ∈ (s q).st.abaIn := by
      rcases aba_cases hn hv with h | rfl
      · exact hs.input p j v hp h
      · exact hok.2
    obtain ⟨q, hq, hmem⟩ := hold
    exact ⟨q, hq, (next_thread hn q j).2.2 hmem⟩

theorem reached_answers (h : (protocol C).Reachable (fun _ => true) AbaOutputs s) : Answers s :=
  Reach.invariant Answers (fun _ _ _ hs hok hn => hs.step hok hn) h
    ⟨(fun _ _ _ _ _ _ _ h => by cases h), (fun _ _ _ _ h => by cases h)⟩

theorem SubProtocols.abaOutputs {e : Label C.N Empty (Act C.N)} (h : SubProtocols C s e) :
    AbaOutputs s e := by
  cases e with
  | deliver _ _ m => exact m.elim
  | act p a =>
    cases a with
    | abaOut j v => exact h
    | rbcOut j m => trivial
    | rbcRaise j => trivial
    | main => trivial

theorem Common.step (hs : Common s) {e : Label C.N Empty (Act C.N)} (hok : SubProtocols C s e)
    (hn : (protocol C).next (fun _ => true) s e = some t) : Common t :=
  { Answers.step ⟨hs.aba, hs.input⟩ hok.abaOutputs hn with
    rbc := fun p q j m m' hp hq hm hm' => by
      rcases done_cases hn hm with h | rfl
      · rcases done_cases hn hm' with h' | rfl
        · exact hs.rbc p q j m m' hp hq h h'
        · exact (hok p hp).2 m (output_eq_some h)
      · rcases done_cases hn hm' with h' | h'
        · exact ((hok q hq).2 m' (output_eq_some h')).symm
        · cases h'
          rfl
    noRaise := fun p q j m hp hq hr hm => by
      rcases raised_cases hn hr with h | rfl
      · rcases done_cases hn hm with h' | rfl
        · exact hs.noRaise p q j m hp hq h h'
        · exact (hok p hp).1 h
      · rcases done_cases hn hm with h' | h'
        · cases (hok q hq).symm.trans (output_eq_some h')
        · cases h' }

theorem reached_common (h : Reached C s) : Common s := by
  refine Reach.invariant Common (fun a e b hs hok hn => hs.step hok hn) h ?_
  exact ⟨(fun _ _ _ _ _ _ _ h => by cases h), (fun _ _ _ _ _ _ h => by cases h),
    (fun _ _ _ _ _ _ _ h => by cases h), (fun _ _ _ _ h => by cases h)⟩

/-! ## the assertions -/

section
variable (h : Reached C s) {p : Fin C.N} (hp : C.Honest p)
include h hp

/-- an agreement that decided 1 at one honest party decided 1 at every one that has its output -/
theorem sumValues_le_of_joined {q : Fin C.N} (hq : C.Honest q)
    (hjoined : ∀ j, (s p).st.aThreads j ≠ none) : (s q).st.sumValues ≤ (s p).st.sumValues := by
  refine sumValues_le fun k hk => ?_
  obtain ⟨v, hv⟩ := Option.ne_none_iff_exists'.mp (hjoined k)
  have htrue := (reached_call h q hq).aba_true hk
  obtain rfl := (reached_common h).aba p q k v true hp hq hv htrue
  rw [(reached_call h p hp).values k, hv]
  rfl

/-- **the first assertion holds** -/
theorem not_fewCommitted : (s p).st.main ≠ .fewCommitted := by
  intro hm
  have hcall := reached_call h p hp
  have hfew := hcall.main
  rw [hm] at hfew
  replace hfew : (s p).st.sumValues < C.N - C.f := hfew
  have hjoined := hcall.joined (by rw [hm]; exact fun h => by cases h)
  by_cases hall : ∀ j, (s p).st.abaValues j = true
  · have : (s p).st.sumValues = C.N := by
      unfold sumValues
      rw [Finset.filter_true_of_mem fun j _ => hall j, Finset.card_univ, Fintype.card_fin]
    omega
  · -- a 0 was decided, so an honest party had `N-f` ones when it gave 0
    push Not at hall
    obtain ⟨j, hj⟩ := hall
    have hfalse := hcall.aba_false (hjoined j) (eq_false_of_ne_true hj)
    obtain ⟨q, hq, hin⟩ := (reached_common h).input p j false hp hfalse
    have hones := (reached_call h q hq).zero j hin
    have hle := sumValues_le_of_joined h hp hq hjoined
    omega

/-- **the second assertion holds** -/
theorem not_noValue : (s p).st.main ≠ .noValue := by
  intro hm
  have hcall := reached_call h p hp
  have hno := hcall.main
  rw [hm] at hno
  obtain ⟨j, hj, hr⟩ := hno
  obtain ⟨q, hq, hin⟩ := (reached_common h).input p j true hp (hcall.aba_true hj)
  obtain ⟨m, hdone⟩ := (reached_call h q hq).one j hin
  exact (reached_common h).noRaise p q j m hp hq hr hdone

/-- the entries of the result -/
theorem entries {values : Fin C.N → Option Bytes} (hm : (s p).st.main = .returned values) :
    C.N - C.f ≤ (s p).st.sumValues ∧ ∀ j,
      ((s p).st.aThreads j = some true ∧ ∃ m, (s p).st.rThreads j = .done m ∧ values j = some m) ∨
      ((s p).st.aThreads j = some false ∧ values j = none) := by
  have hcall := reached_call h p hp
  have hmain := hcall.main
  rw [hm] at hmain
  obtain ⟨hsum, hfin⟩ := hmain
  have hjoined := hcall.joined (by rw [hm]; exact fun h => by cases h)
  refine ⟨hsum, fun j => ?_⟩
  cases hj : (s p).st.abaValues j with
  | true => exact .inl ⟨hcall.aba_true hj, (hfin j).2.1 hj⟩
  | false => exact .inr ⟨hcall.aba_false (hjoined j) hj, (hfin j).2.2 hj⟩

end

/-- the agreement `j` has decided `v` at an honest party -/
def Decided (s : State C) (j : Fin C.N) (v : Bool) : Prop :=
  ∃ q, C.Honest q ∧ (s q).st.aThreads j = some v

/-- the broadcast `j` has returned `m` to an honest party -/
def Broadcast (s : State C) (j : Fin C.N) (m : Bytes) : Prop :=
  ∃ q, C.Honest q ∧ (s q).st.rThreads j = .done m

section
variable (h : Reached C s) {p : Fin C.N} (hp : C.Honest p) {values : Fin C.N → Option Bytes}
  (hv : (s p).st.main = .returned values)
include h hp hv

/-- an entry is the output of its broadcast if the agreement decided 1, else `None` -/
theorem entry_iff (j : Fin C.N) (m : Bytes) :
    values j = some m ↔ Decided s j true ∧ Broadcast s j m := by
  have hcommon := reached_common h
  constructor
  · intro hm
    rcases (entries h hp hv).2 j with ⟨ha, m', hr, hm'⟩ | ⟨-, hm'⟩
    · obtain rfl := Option.some.inj (hm.symm.trans hm')
      exact ⟨⟨p, hp, ha⟩, ⟨p, hp, hr⟩⟩
    · cases hm.symm.trans hm'
  · rintro ⟨⟨q, hq, ha⟩, ⟨q', hq', hr⟩⟩
    rcases (entries h hp hv).2 j with ⟨-, m', hr', hm'⟩ | ⟨ha', -⟩
    · rw [hm', hcommon.rbc p q' j m' m hp hq' hr' hr]
    · cases hcommon.aba q p j _ _ hq hp ha ha'

theorem entry_ne_none_iff (j : Fin C.N) : values j ≠ none ↔ Decided s j true := by
  constructor
  · intro hne
    obtain ⟨m, hm⟩ := Option.ne_none_iff_exists'.mp hne
    exact ((entry_iff h hp hv j m).mp hm).1
  · rintro ⟨q, hq, ha⟩
    rcases (entries h hp hv).2 j with ⟨-, m', -, hm'⟩ | ⟨ha', -⟩
    · rw [hm']
      intro h
      cases h
    · cases (reached_common h).aba q p j _ _ hq hp ha ha'

/-- there is an entry for all parties but `f` -/
theorem card_entries : C.N - C.f ≤ (Finset.univ.filter fun j => values j ≠ none).card := by
  refine (entries h hp hv).1.trans (Finset.card_le_card fun j hj => ?_)
  have htrue := (reached_call h p hp).aba_true (Finset.mem_filter.mp hj).2
  exact Finset.mem_filter.mpr
    ⟨Finset.mem_univ j, (entry_ne_none_iff h hp hv j).mpr ⟨p, hp, htrue⟩⟩

end

/-- **safety**: honest calls return the same tuple, with entries for `N-f` parties at least; an
entry is there when its agreement decided 1, and is the output of its broadcast; no assertion fails -/
theorem safety (C : Committee) (s : State C) (h : Reached C s) :
    (∀ p q values values', C.Honest p → C.Honest q → (s p).st.main = .returned values →
      (s q).st.main = .returned values' → values = values') ∧
    (∀ p values, C.Honest p → (s p).st.main = .returned values →
      C.N - C.f ≤ (Finset.univ.filter fun j => values j ≠ none).card ∧
      ∀ j, (values j ≠ none ↔ Decided s j true) ∧
        ∀ m, values j = some m ↔ Decided s j true ∧ Broadcast s j m) ∧
    ∀ p, C.Honest p → (s p).st.main ≠ .fewCommitted ∧ (s p).st.main ≠ .noValue := by
  refine ⟨fun p q values values' hp hq hv hv' => ?_, fun p values hp hv => ?_, fun p hp => ?_⟩
  · funext j
    refine Option.ext fun m => ?_
    rw [entry_iff h hp hv, entry_iff h hq hv']
  · exact ⟨card_entries h hp hv, fun j => ⟨entry_ne_none_iff h hp hv j, entry_iff h hp hv j⟩⟩
  · exact ⟨not_fewCommitted h hp, not_noValue h hp⟩

/-! ## a run -/

instance (s : State C) : DecidablePred (SubProtocols C s)
  | .act _ (.rbcOut j m) => inferInstanceAs (Decidable (∀ q, C.Honest q →
      (s q).st.rThreads j ≠ .raised ∧ ∀ m' ∈ ((s q).st.rThreads j).output, m' = m))
  | .act _ (.rbcRaise j) => inferInstanceAs (Decidable (∀ q, C.Honest q →
      ((s q).st.rThreads j).output = none))
  | .act _ (.abaOut j v) => inferInstanceAs (Decidable
      ((∀ q, C.Honest q → ∀ v' ∈ (s q).st.aThreads j, v' = v) ∧
        ∃ q, C.Honest q ∧ (j, v) ∈ (s q).st.abaIn))
  | .act _ .main => isTrue trivial
  | .deliver _ _ _ => isTrue trivial

/-- four parties, the last of them Byzantine -/
def four : Committee := Committee.four

/-- the broadcasts and agreements of the honest parties come to an end, in this order at each party,
and the agreement 3 decides 0 -/
def fourRun : List (Label four.N Empty (Act four.N)) :=
  let honest : List (Fin four.N) := [0, 1, 2]
  let outs (p : Fin four.N) := honest.map fun j => .act p (.rbcOut j [j.val.toUInt8])
  let ones (p : Fin four.N) := honest.map fun j => .act p (.abaOut j true)
  let rest (p : Fin four.N) := .act p (.abaOut 3 false) :: List.replicate 6 (.act p .main)
  honest.flatMap outs ++ honest.flatMap ones ++ honest.flatMap rest

def fourValues : Fin four.N → Option Bytes := fun j => if j = 3 then none else some [j.val.toUInt8]

def returnedWith {n : ℕ} (values : Fin n → Option Bytes) : Main n → Bool
  | .returned values' => decide (values' = values)
  | _ => false

theorem eq_of_returnedWith {n : ℕ} {values : Fin n → Option Bytes} {m : Main n}
    (h : returnedWith values m = true) : m = .returned values := by
  cases m with
  | returned values' => rw [of_decide_eq_true h]
  | joining => cases h
  | scanning i => cases h
  | fewCommitted => cases h
  | noValue => cases h

theorem safety_four : ∃ s : State four, Reached four s ∧
    (∀ p, four.Honest p → (s p).st.main = .returned fourValues) ∧
    four.N - four.f ≤ (Finset.univ.filter fun j => fourValues j ≠ none).card ∧
    ∀ j, (fourValues j ≠ none ↔ Decided s j true) ∧
      ∀ m, fourValues j = some m ↔ Decided s j true ∧ Broadcast s j m := by
  have hexec : (exec ((protocol four).next fun _ => true) (fun s e => decide (SubProtocols four s e))
      (protocol four).start fourRun).any (fun s =>
        decide (∀ p, four.Honest p → returnedWith fourValues (s p).st.main = true)) = true := by
    decide +kernel
  obtain ⟨s, hs, hgood⟩ := exists_reach_of_exec (fun _ _ => of_decide_eq_true) hexec
  have hret : ∀ p, four.Honest p → (s p).st.main = .returned fourValues :=
    fun p hp => eq_of_returnedWith (of_decide_eq_true hgood p hp)
  exact ⟨s, hs, hret, (safety four s hs).2.1 0 fourValues (by decide) (hret 0 (by decide))⟩

end ACS
