import HoneyBadgerBFT.CommonSubset.Party

/-!
# Common subset: the invariant of one call

`Call N f p` says what stands behind the inputs that a call has given to the agreements, behind its
arrays, and behind the place of its main greenlet.  One step lemma for each action; `Call.act` puts
them together.
-/

namespace ACS
open Async Trans Party

variable {n N f : ℕ} {p : Party n} {j : Fin n}

/-- the entry `x` is what the main greenlet leaves in `rbc_values[j]` -/
def Final (p : Party n) (j : Fin n) (x : Option Bytes) : Prop :=
  (p.abaValues j = true → ∃ m, p.rThreads j = .done m ∧ x = some m) ∧
  (p.abaValues j = false → x = none)

/-- what has been checked when the main greenlet is at a place -/
def MainAt (N f : ℕ) (p : Party n) : Main n → Prop
  | .joining => True
  | .scanning i => N - f ≤ p.sumValues ∧
      ∀ j : Fin n, j < i → p.rThreads j ≠ .waiting ∧ Final p j (p.rbcValues j)
  | .returned values => N - f ≤ p.sumValues ∧
      ∀ j, p.rThreads j ≠ .waiting ∧ Final p j (values j)
  | .fewCommitted => p.sumValues < N - f
  | .noValue => ∃ j, p.abaValues j = true ∧ p.rThreads j = .raised

structure Call (N f : ℕ) (p : Party n) : Prop where
  one : ∀ j, (j, true) ∈ p.abaIn → ∃ m, p.rThreads j = .done m
  zero : ∀ j, (j, false) ∈ p.abaIn → N - f ≤ p.sumValues
  inputted : ∀ j, p.abaInputted j = true ↔ ∃ v, (j, v) ∈ p.abaIn
  once : (p.abaIn.map Prod.fst).Nodup
  values : ∀ j, p.abaValues j = (p.aThreads j).getD false
  done : ∀ j m, p.rThreads j = .done m → p.aThreads j ≠ some false → p.rbcValues j = some m
  undone : ∀ j, (p.rThreads j).output = none → p.rbcValues j = none
  killed : ∀ j, p.rThreads j = .killed → p.aThreads j = some false
  joined : p.main ≠ .joining → ∀ j, p.aThreads j ≠ none
  main : MainAt N f p p.main

theorem Call.init : Call N f (Party.init : Party n) where
  one j h := by cases h
  zero j h := by cases h
  inputted j := ⟨(fun h => by cases h), fun h => by cases h.choose_spec⟩
  once := List.nodup_nil
  values _ := rfl
  done _ _ := fun h => by cases h
  undone _ _ := rfl
  killed _ := fun h => by cases h
  joined h := absurd rfl h
  main := trivial

/-! ## inputs to the agreements -/

theorem Call.provide (h : Call N f p) {v : Bool} (j : Fin n)
    (hone : v = true → ∃ m, p.rThreads j = .done m) (hzero : v = false → N - f ≤ p.sumValues) :
    Call N f (p.provide v j) := by
  unfold Party.provide
  split
  · exact h
  · next hno =>
    have hnot : j ∉ p.abaIn.map Prod.fst := by
      intro hmem
      obtain ⟨⟨k, v'⟩, hk, rfl⟩ := List.mem_map.mp hmem
      exact hno ((h.inputted k).mpr ⟨v', hk⟩)
    refine
      { h with
        one := fun k hk => ?_
        zero := fun k hk => ?_
        inputted := fun k => ?_
        once := ?_ }
    · rcases List.mem_cons.mp hk with hk | hk
      · obtain ⟨rfl, rfl⟩ := Prod.mk.inj hk
        exact hone rfl
      · exact h.one k hk
    · rcases List.mem_cons.mp hk with hk | hk
      · exact hzero (Prod.mk.inj hk).2.symm
      · exact h.zero k hk
    · by_cases hkj : k = j
      · subst hkj
        exact ⟨fun _ => ⟨v, List.mem_cons_self⟩, fun _ => Function.update_self ..⟩
      · show Function.update p.abaInputted j true k = true ↔ ∃ v', (k, v') ∈ (j, v) :: p.abaIn
        rw [Function.update_of_ne hkj, h.inputted k]
        refine exists_congr fun v' => ⟨List.mem_cons_of_mem _, fun hk => ?_⟩
        exact (List.mem_cons.mp hk).resolve_left fun e => hkj (Prod.mk.inj e).1
    · exact List.nodup_cons.mpr ⟨hnot, h.once⟩

theorem provide_sumValues (v : Bool) (p : Party n) (j : Fin n) :
    (p.provide v j).sumValues = p.sumValues := by
  unfold Party.provide
  split <;> rfl

/-- `Provide 0 to all other aba` -/
theorem Call.provideAll (ks : List (Fin n)) : ∀ {p : Party n}, Call N f p → N - f ≤ p.sumValues →
    Call N f (ks.foldl (Party.provide false) p) := by
  induction ks with
  | nil => exact fun h _ => h
  | cons k ks ih =>
    intro p h hsum
    exact ih (h.provide k (fun h => by cases h) fun _ => hsum) (by rwa [provide_sumValues])

/-! ## the greenlets of the broadcasts -/

theorem Final.congr {p' : Party n} {x : Option Bytes} (h : Final p j x)
    (ha : p'.abaValues j = p.abaValues j) (hr : p'.rThreads j = p.rThreads j) : Final p' j x := by
  unfold Final
  rw [ha, hr]
  exact h

/-- a greenlet that still waits is none of those that the main greenlet has passed -/
theorem MainAt.endThread {m : Main n} (h : MainAt N f p m) (hw : p.rThreads j = .waiting)
    (t : RThread) {r : Fin n → Option Bytes} (hother : ∀ k, k ≠ j → r k = p.rbcValues k) :
    MainAt N f { p with rThreads := Function.update p.rThreads j t, rbcValues := r } m := by
  have hne : ∀ {k}, p.rThreads k ≠ .waiting → k ≠ j := fun hk e => hk (e ▸ hw)
  have hupd : ∀ {k}, p.rThreads k ≠ .waiting → Function.update p.rThreads j t k = p.rThreads k :=
    fun hk => Function.update_of_ne (hne hk) _ _
  cases m with
  | joining => trivial
  | scanning i =>
    refine ⟨h.1, fun k hk => ?_⟩
    obtain ⟨h1, h2⟩ := h.2 k hk
    dsimp only
    rw [hupd h1, hother k (hne h1)]
    exact ⟨h1, h2.congr rfl (hupd h1)⟩
  | returned values => exact absurd hw (h.2 j).1
  | fewCommitted => exact h
  | noValue =>
    obtain ⟨k, h1, h2⟩ := h
    exact ⟨k, h1, (hupd (by rw [h2]; exact fun h => by cases h)).trans h2⟩

/-- a greenlet that was in `rbc_out[j]()` has ended as `t` -/
theorem Call.endThread (h : Call N f p) (hw : p.rThreads j = .waiting) {t : RThread}
    (ht : t = .raised ∨ ∃ m, t = .done m) {r : Fin n → Option Bytes} (hr : r j = t.output)
    (hother : ∀ k, k ≠ j → r k = p.rbcValues k) :
    Call N f { p with rThreads := Function.update p.rThreads j t, rbcValues := r } := by
  have hupd : ∀ {k}, k ≠ j → Function.update p.rThreads j t k = p.rThreads k :=
    fun hk => Function.update_of_ne hk _ _
  have hself : Function.update p.rThreads j t j = t := Function.update_self ..
  refine
    { h with
      one := fun k hk => ?_
      done := fun k m hk hv => ?_
      undone := fun k hk => ?_
      killed := fun k hk => ?_
      main := h.main.endThread hw t hother }
  · obtain ⟨m, hm⟩ := h.one k hk
    have hkj : k ≠ j := by
      rintro rfl
      cases hw.symm.trans hm
    exact ⟨m, (hupd hkj).trans hm⟩
  · by_cases hkj : k = j
    · subst hkj
      have hm : t = .done m := hself.symm.trans hk
      show r k = some m
      rw [hr, hm]
      rfl
    · exact (hother k hkj).trans (h.done k m ((hupd hkj).symm.trans hk) hv)
  · by_cases hkj : k = j
    · subst hkj
      show r k = none
      rw [hr, ← hself]
      exact hk
    · refine (hother k hkj).trans (h.undone k ?_)
      rw [← hupd hkj]
      exact hk
  · by_cases hkj : k = j
    · subst hkj
      have hm : t = .killed := hself.symm.trans hk
      rcases ht with rfl | ⟨m, rfl⟩ <;> cases hm
    · exact h.killed k ((hupd hkj).symm.trans hk)

theorem Call.recvRbc (h : Call N f p) {m : Bytes} {p' : Party n} (hp : p.recvRbc j m = some p') :
    Call N f p' := by
  unfold Party.recvRbc at hp
  split at hp
  · next hw =>
    obtain rfl := Option.some.inj hp
    refine Call.provide ?_ j (fun _ => ⟨m, Function.update_self ..⟩) (fun h => by cases h)
    exact h.endThread hw (.inr ⟨m, rfl⟩) (Function.update_self ..)
      fun k hk => Function.update_of_ne hk _ _
  · cases hp

theorem Call.raiseRbc (h : Call N f p) {p' : Party n} (hp : p.raiseRbc j = some p') :
    Call N f p' := by
  unfold Party.raiseRbc at hp
  split at hp
  · next hw =>
    obtain rfl := Option.some.inj hp
    exact h.endThread hw (.inl rfl) (h.undone j (by rw [hw]; rfl)) fun _ _ => rfl
  · cases hp

/-! ## the greenlets of the agreements -/

theorem sumValues_le {p' : Party n} (h : ∀ k, p.abaValues k = true → p'.abaValues k = true) :
    p.sumValues ≤ p'.sumValues := by
  refine Finset.card_le_card fun k hk => ?_
  exact Finset.mem_filter.mpr ⟨Finset.mem_univ k, h k (Finset.mem_filter.mp hk).2⟩

/-- `aba_out[j]()` has returned `v`; the main greenlet has not joined this thread before -/
theorem Call.joinAba (h : Call N f p) (hw : p.aThreads j = none) (v : Bool) :
    Call N f { p with
      abaValues := Function.update p.abaValues j v
      aThreads := Function.update p.aThreads j (some v) } := by
  have hother : ∀ {k}, k ≠ j → Function.update p.abaValues j v k = p.abaValues k :=
    fun hk => Function.update_of_ne hk _ _
  have hother' : ∀ {k}, k ≠ j → Function.update p.aThreads j (some v) k = p.aThreads k :=
    fun hk => Function.update_of_ne hk _ _
  have hended : ∀ {k}, p.aThreads k ≠ none → k ≠ j := fun hk e => hk (e ▸ hw)
  have hmain : p.main = .joining := by
    by_contra hne
    exact h.joined hne j hw
  refine
    { h with
      zero := fun k hk => (h.zero k hk).trans (sumValues_le fun i hi => ?_)
      values := fun k => ?_
      done := fun k m hk hv => h.done k m hk fun e => hv ?_
      killed := fun k hk => ?_
      joined := fun hne => absurd hmain hne
      main := ?_ }
  · have hij : i ≠ j := by
      rintro rfl
      rw [h.values i, hw] at hi
      cases hi
    exact (hother hij).trans hi
  · dsimp only
    by_cases hkj : k = j
    · subst hkj
      rw [Function.update_self, Function.update_self]
      rfl
    · rw [hother hkj, hother' hkj]
      exact h.values k
  · exact (hother' (hended (by rw [e]; exact fun h => by cases h))).trans e
  · have hk := h.killed k hk
    exact (hother' (hended (by rw [hk]; exact fun h => by cases h))).trans hk
  · dsimp only
    rw [hmain]
    trivial

theorem Call.recvAba (h : Call N f p) {v : Bool} {p' : Party n}
    (hp : p.recvAba N f j v = some p') : Call N f p' := by
  unfold Party.recvAba at hp
  split at hp
  · next hw =>
    obtain rfl := Option.some.inj hp
    split
    · next hsum => exact (h.joinAba hw v).provideAll _ hsum
    · exact h.joinAba hw v
  · cases hp

/-! ## the main greenlet -/

/-- the main greenlet moves on -/
theorem Call.goTo (h : Call N f p) {m : Main n} (hj : ∀ j, p.aThreads j ≠ none)
    (hm : MainAt N f p m) : Call N f { p with main := m } :=
  { h with
    joined := fun _ => hj
    main := by
      cases m with
      | joining => trivial
      | scanning i => exact hm
      | returned values => exact hm
      | fewCommitted => exact hm
      | noValue => exact hm }

theorem Call.aba_false (h : Call N f p) (hj : p.aThreads j ≠ none) (hv : p.abaValues j = false) :
    p.aThreads j = some false := by
  obtain ⟨v, hv'⟩ := Option.ne_none_iff_exists'.mp hj
  rw [h.values j, hv'] at hv
  rw [hv', ← hv]
  rfl

theorem Call.aba_true (h : Call N f p) (hv : p.abaValues j = true) : p.aThreads j = some true := by
  rw [h.values j] at hv
  cases ha : p.aThreads j with
  | none =>
    rw [ha] at hv
    cases hv
  | some v =>
    rw [ha] at hv
    rw [← hv]
    rfl

theorem drop_thread (p : Party n) (j : Fin n) : (p.drop j).rThreads j ≠ .waiting := by
  unfold Party.drop
  dsimp only
  split
  · rw [Function.update_self]
    intro h
    cases h
  · next h => exact h

theorem drop_thread_of_ne (p : Party n) {j k : Fin n} (hk : k ≠ j) :
    (p.drop j).rThreads k = p.rThreads k := by
  unfold Party.drop
  dsimp only
  split
  · exact Function.update_of_ne hk _ _
  · rfl

/-- a greenlet that has ended is not killed any more -/
theorem drop_thread_of_ended (p : Party n) {j k : Fin n} (h : p.rThreads k ≠ .waiting) :
    (p.drop j).rThreads k = p.rThreads k := by
  unfold Party.drop
  dsimp only
  split
  · next hj =>
    refine Function.update_of_ne ?_ _ _
    rintro rfl
    exact h hj
  · rfl

theorem drop_thread_cases (p : Party n) (j k : Fin n) :
    (p.drop j).rThreads k = p.rThreads k ∨ k = j ∧ (p.drop j).rThreads k = .killed := by
  unfold Party.drop
  dsimp only
  split
  · by_cases hk : k = j
    · subst hk
      exact .inr ⟨rfl, Function.update_self ..⟩
    · exact .inl (Function.update_of_ne hk _ _)
  · exact .inl rfl

/-- a broadcast whose agreement decided 0 is given up -/
theorem Call.drop (h : Call N f p) (hfalse : p.aThreads j = some false)
    (hjoined : ∀ k, p.aThreads k ≠ none) {m : Main n} (hm : MainAt N f (p.drop j) m) :
    Call N f { p.drop j with main := m } := by
  have hr : ∀ {k}, k ≠ j → Function.update p.rbcValues j none k = p.rbcValues k :=
    fun hk => Function.update_of_ne hk _ _
  refine
    { h with
      one := fun k hk => ?_
      done := fun k m hk hv => ?_
      undone := fun k hk => ?_
      killed := fun k hk => ?_
      joined := fun _ => hjoined
      main := ?_ }
  · obtain ⟨m, hm⟩ := h.one k hk
    exact ⟨m, (drop_thread_of_ended p (by rw [hm]; exact fun h => by cases h)).trans hm⟩
  · have hkj : k ≠ j := fun e => hv (e ▸ hfalse)
    exact (hr hkj).trans (h.done k m ((drop_thread_of_ne p hkj).symm.trans hk) hv)
  · by_cases hkj : k = j
    · subst hkj
      exact Function.update_self ..
    · refine (hr hkj).trans (h.undone k ?_)
      rw [← drop_thread_of_ne p hkj]
      exact hk
  · rcases drop_thread_cases p j k with e | ⟨rfl, -⟩
    · exact h.killed k (e.symm.trans hk)
    · exact hfalse
  · cases m with
    | joining => trivial
    | scanning i => exact hm
    | returned values => exact hm
    | fewCommitted => exact hm
    | noValue => exact hm

/-- a broadcast whose agreement decided 1 and whose greenlet has ended -/
theorem Call.ended (h : Call N f p) (hv : p.abaValues j = true) (hw : p.rThreads j ≠ .waiting) :
    (∃ m, p.rThreads j = .done m ∧ p.rbcValues j = some m) ∨
      (p.rThreads j = .raised ∧ p.rbcValues j = none) := by
  have ha := h.aba_true hv
  cases hr : p.rThreads j with
  | waiting => exact absurd hr hw
  | done m => exact .inl ⟨m, rfl, h.done j m hr (by rw [ha]; exact fun h => by cases h)⟩
  | raised => exact .inr ⟨rfl, h.undone j (by rw [hr]; rfl)⟩
  | killed => cases ha.symm.trans (h.killed j hr)

/-- one turn of the loop after `joinall` -/
theorem Call.scan (h : Call N f p) {i : ℕ} (hm : p.main = .scanning i) {p' : Party n}
    (hp : p.mainStep N f = some p') : Call N f p' := by
  have hjoined := h.joined (by rw [hm]; exact fun h => by cases h)
  have hmain := h.main
  rw [hm] at hmain
  obtain ⟨hsum, hbefore⟩ := hmain
  unfold Party.mainStep at hp
  simp only [hm] at hp
  split at hp
  · next hi =>
    split at hp
    · next hv =>
      split at hp
      · cases hp
      · next hw =>
        obtain rfl := Option.some.inj hp
        refine h.goTo hjoined ?_
        rcases h.ended hv hw with ⟨m, hr, hval⟩ | ⟨hr, hval⟩
        · rw [if_pos (by rw [hval]; exact fun h => by cases h)]
          refine ⟨hsum, fun k hk => ?_⟩
          rcases Nat.lt_succ_iff_lt_or_eq.mp hk with hlt | rfl
          · exact hbefore k hlt
          · exact ⟨hw, fun _ => ⟨m, hr, hval⟩, fun hno => by cases hv.symm.trans hno⟩
        · rw [if_neg (not_not.mpr hval)]
          exact ⟨⟨i, hi⟩, hv, hr⟩
    · next hv =>
      obtain rfl := Option.some.inj hp
      have hfalse := eq_false_of_ne_true hv
      refine h.drop (h.aba_false (hjoined _) hfalse) hjoined ⟨hsum, fun k hk => ?_⟩
      rcases Nat.lt_succ_iff_lt_or_eq.mp hk with hlt | rfl
      · obtain ⟨h1, h2⟩ := hbefore k hlt
        have hki : k ≠ ⟨i, hi⟩ := by
          rintro rfl
          exact absurd hlt (lt_irrefl i)
        have hval : (p.drop ⟨i, hi⟩).rbcValues k = p.rbcValues k := Function.update_of_ne hki _ _
        rw [drop_thread_of_ne p hki, hval]
        exact ⟨h1, h2.congr rfl (drop_thread_of_ne p hki)⟩
      · exact ⟨drop_thread p _, fun hyes => absurd hyes hv, fun _ => Function.update_self ..⟩
  · next hi =>
    obtain rfl := Option.some.inj hp
    exact h.goTo hjoined ⟨hsum, fun k => hbefore k (k.isLt.trans_le (Nat.le_of_not_lt hi))⟩

theorem Call.mainStep (h : Call N f p) {p' : Party n} (hp : p.mainStep N f = some p') :
    Call N f p' := by
  cases hm : p.main with
  | joining =>
    unfold Party.mainStep at hp
    simp only [hm] at hp
    split at hp
    · next hall =>
      obtain rfl := Option.some.inj hp
      refine h.goTo hall ?_
      split
      · next hsum => exact ⟨hsum, fun j hj => absurd hj (Nat.not_lt_zero _)⟩
      · next hsum => exact Nat.lt_of_not_le hsum
    · cases hp
  | scanning i => exact h.scan hm hp
  | returned values =>
    unfold Party.mainStep at hp
    simp only [hm] at hp
    cases hp
  | fewCommitted =>
    unfold Party.mainStep at hp
    simp only [hm] at hp
    cases hp
  | noValue =>
    unfold Party.mainStep at hp
    simp only [hm] at hp
    cases hp

/-- **step lemma** -/
theorem Call.act (h : Call N f p) {a : Act n} {p' : Party n} (hp : p.act N f a = some p') :
    Call N f p' := by
  cases a with
  | rbcOut j m => exact h.recvRbc hp
  | rbcRaise j => exact h.raiseRbc hp
  | abaOut j v => exact h.recvAba hp
  | main => exact h.mainStep hp

theorem reached_call {C : Committee} {s : State C}
    {ok : State C → Label C.N Empty (Act C.N) → Prop}
    (h : (protocol C).Reachable (fun _ => true) ok s) :
    ∀ p, C.Honest p → Call C.N C.f (s p).st := by
  refine node_invariant (fun _ nd => Call C.N C.f nd.st) (fun _ _ => Call.init) ?_ ?_ h
  · exact fun _ _ m => m.elim
  · exact fun p a nd x _ hnd hx => hnd.act hx

end ACS
