import HoneyBadgerBFT.BinaryAgreement.Rounds

/-!
# Binary agreement: what the CONF phase binds

The CONF phase is there against an adversary that sees the coin of a round as soon as one honest
party asks for it: when the first honest party returns from `wait_for_conf_values`, some bit is to
be out of reach as the singleton of the slower ones (`Bound`).

* `bound_of_senders`     `f+1` honest CONF messages of a round bind it;
* `bound_of_distinct`    so does a first return whose third test counts distinct senders;
* `attack_not_bound`     but that test adds up the sizes of three sets of senders, and a Byzantine
                         party in all three can stand for three.
-/

namespace BA
open Async Trans Party

variable {C : Committee} {s t : State C}

/-- in no continuation does an honest party return the bit `w` alone in the round `r` -/
def RuledOut (s : State C) (r : ℤ) (w : Bool) : Prop :=
  ∀ u, Reach ((protocol C).next Msg.wellFormed) AtMostOnce s u →
    ∀ q, C.Honest q → .confReturn r {w} ∉ (u q).st.trace

/-- one bit is ruled out for good -/
def Bound (s : State C) (r : ℤ) : Prop := ∃ w, RuledOut s r w

/-- with the step from `s` to `t` the first honest party returns from `wait_for_conf_values` in the
round `r` -/
def FirstReturn (s t : State C) (r : ℤ) : Prop :=
  (∀ q, C.Honest q → ∀ V, .confReturn r V ∉ (s q).st.trace) ∧
    ∃ p, C.Honest p ∧ ∃ V, .confReturn r V ∈ (t p).st.trace

/-- the senders that the third test of `wait_for_conf_values` counts, each once -/
def Party.confSenders {n : ℕ} (p : Party n) (r : ℤ) : Finset (Fin n) :=
  (confKeys.toFinset.filter fun c => ∀ b ∈ c, b ∈ p.binValues r).biUnion (p.confValues r)

/-- when the first two tests fail, the third does not succeed by counting one sender twice -/
def Party.CountsDistinct {n : ℕ} (f : ℕ) (p : Party n) : Prop :=
  (∀ v ∈ p.binValues p.r, (p.confValues p.r [v]).card < n - f) → n - f ≤ p.confSum p.r →
    n - f ≤ (p.confSenders p.r).card

instance {n : ℕ} (f : ℕ) (p : Party n) : Decidable (p.CountsDistinct f) :=
  inferInstanceAs (Decidable (_ → _ → _))

/-- the step is no test of `wait_for_conf_values`, or one that counts distinct senders -/
def DistinctConf (s : State C) : Lbl C → Prop
  | .act p .main => (s p).st.pc = .conf → (s p).st.CountsDistinct C.f
  | _ => True

theorem mem_confSenders {n : ℕ} {p : Party n} {r : ℤ} {q : Fin n} (h : q ∈ p.confSenders r) :
    ∃ c ∈ confKeys, q ∈ p.confValues r c := by
  unfold confSenders at h
  obtain ⟨c, hc, hq⟩ := Finset.mem_biUnion.mp h
  exact ⟨c, List.mem_toFinset.mp (Finset.mem_filter.mp hc).1, hq⟩

/-- the step in which an honest party returns from `wait_for_conf_values` -/
theorem confReturn_step {e : Lbl C} (hn : (protocol C).next Msg.wellFormed s e = some t)
    {p : Fin C.N} {r : ℤ} {V : Finset Bool} (hs : .confReturn r V ∉ (s p).st.trace)
    (ht : .confReturn r V ∈ (t p).st.trace) :
    e = .act p .main ∧ (s p).st.pc = .conf ∧ r = (s p).st.r ∧ (s p).st.confExit C.f = some V := by
  rcases next_at hn p with heq | ⟨src, m, -, -, -, -, heq⟩ | ⟨a, x, rfl, -, hx, heq⟩ <;>
    rw [heq] at ht
  · exact absurd ht hs
  · replace ht : _ ∈ (Party.recv C.f src m (s p).st).trace := ht
    rcases recv_trace C.f src m (s p).st with h | ⟨r', v, h, -⟩ <;> rw [h] at ht
    · exact absurd ht hs
    · rcases List.mem_cons.mp ht with h0 | h0
      · cases h0
      · exact absurd h0 hs
  · rcases act_confReturn hx ht with h0 | ⟨rfl, h1⟩
    · exact absurd h0 hs
    · exact ⟨rfl, h1⟩

section
variable (h : Reached C AtMostOnce s) {r : ℤ}
include h

/-- a bit that an honest party returned alone is the only one -/
theorem bound_of_single {p : Fin C.N} (hp : C.Honest p) {v : Bool}
    (hv : .confReturn r {v} ∈ (s p).st.trace) : Bound s r := by
  refine ⟨!v, fun u hu q hq hw => ?_⟩
  have hr : Reached C AtMostOnce u := h.trans hu
  have := confReturn_unique hr hp hq ((reach_grows hu p).trace hv) hw
  cases v <;> cases this

/-- **`f+1` honest CONF messages bind the round** -/
theorem bound_of_senders (A : Finset (Fin C.N)) (hA : C.f + 1 ≤ A.card)
    (hsent : ∀ q ∈ A, C.Honest q ∧ ∃ c ∈ confKeys, .CONF r c ∈ (s q).st.sent) : Bound s r := by
  by_cases hone : ∃ q, C.Honest q ∧ ∃ v, .CONF r [v] ∈ (s q).st.sent
  · -- one of them names the bit `v`: nobody honest sends the other one, so no quorum does
    obtain ⟨q, hq, v, hv⟩ := hone
    refine ⟨!v, fun u hu p hp hw => ?_⟩
    have hr : Reached C AtMostOnce u := h.trans hu
    obtain ⟨-, hcard⟩ := confReturn_quorum hr hp hw
    have hres := C.resilient
    obtain ⟨b, hb, hbh⟩ := Committee.exists_honest (C := C) (A := (u p).st.confValues r [!v])
      (by omega)
    have := conf_single_agree hr hq hbh (sent_subset (reach_grows hu q) hv)
      (conf_sent hr hp hbh hb)
    cases v <;> cases this
  · -- all of them name both bits, and a quorum for one bit would have to do without them
    refine ⟨false, fun u hu p hp hw => ?_⟩
    have hr : Reached C AtMostOnce u := h.trans hu
    obtain ⟨-, hcard⟩ := confReturn_quorum hr hp hw
    have hdisj : Disjoint A ((u p).st.confValues r [false]) := by
      rw [Finset.disjoint_left]
      intro b hb hb'
      obtain ⟨hbh, c, -, hc⟩ := hsent b hb
      have := conf_unique hr hbh (sent_subset (reach_grows hu b) hc) (conf_sent hr hp hbh hb')
      exact hone ⟨b, hbh, false, this ▸ hc⟩
    have hle : (A ∪ (u p).st.confValues r [false]).card ≤ C.N := by
      simpa using Finset.card_le_univ (A ∪ (u p).st.confValues r [false])
    rw [Finset.card_union_of_disjoint hdisj] at hle
    have := C.resilient
    omega

end

/-- **binding**: in a run with at most one copy of each Byzantine message, a first return whose
test counts distinct senders rules one bit out for good -/
theorem bound_of_distinct (C : Committee) (s t : State C) (e : Lbl C) (r : ℤ)
    (h : Reached C AtMostOnce s) (he : AtMostOnce s e) (hd : DistinctConf s e)
    (hn : (protocol C).next Msg.wellFormed s e = some t) (hfirst : FirstReturn s t r) :
    Bound t r := by
  obtain ⟨hno, p, hp, V, hV⟩ := hfirst
  have ht : Reached C AtMostOnce t := h.tail ⟨e, he, hn⟩
  obtain ⟨rfl, hpc, rfl, hx⟩ := confReturn_step hn (hno p hp V) hV
  rcases confExit_cases hx with ⟨v, rfl, -, -⟩ | ⟨-, hsmall, hsum⟩
  · exact bound_of_single ht hp hV
  · have hcard := hd hpc hsmall hsum
    have hres := C.resilient
    refine bound_of_senders ht (((s p).st.confSenders (s p).st.r).filter fun q => C.Honest q)
      (Committee.honest_le_card (by omega)) fun q hq => ?_
    obtain ⟨hq, hqh⟩ := Finset.mem_filter.mp hq
    obtain ⟨c, hc, hqc⟩ := mem_confSenders hq
    exact ⟨hqh, c, hc, sent_subset (next_grows hn q) (conf_sent h hp hqh hqc)⟩

/-- the honest parties 0, 1 and 2 have both bits, and 0 has the CONF messages of all three -/
def mixedRun : List (Lbl four) :=
  let all : List (Fin four.N) := [0, 1, 2]
  begin false 0 ++ begin false 1 ++ begin true 2 ++ all.flatMap (arrive [0, 1, 3] (.EST 0 false)) ++
    all.flatMap (arrive [2, 3, 0] (.EST 0 true)) ++ all.flatMap (go 1) ++
    all.flatMap (arrive [0, 1] (.AUX 0 false)) ++ all.flatMap (arrive [3] (.AUX 0 true)) ++
    all.flatMap (go 1) ++ arrive all (.CONF 0 [false, true]) 0

theorem bound_of_distinct_four : ∃ s t : State four, Reached four AtMostOnce s ∧
    (protocol four).next Msg.wellFormed s (.act 0 .main) = some t ∧ FirstReturn s t 0 ∧
      Bound t 0 := by
  obtain ⟨s, t, hs, ht, ⟨hno, hd⟩, hret⟩ := exists_exec_step AtMostOnce mixedRun (.act 0 .main)
    (fun s : State four => (∀ q, four.Honest q → (0, 4) ∉ (s q).st.marks) ∧
      (s 0).st.CountsDistinct 1)
    (fun t : State four => Out.confReturn 0 {false, true} ∈ (t 0).st.trace) (by decide +kernel)
  have hfirst : FirstReturn s t 0 :=
    ⟨fun q hq V hV => hno q hq (mem_marks hV rfl), 0, by decide, {false, true}, hret⟩
  exact ⟨s, t, hs, ht, hfirst,
    bound_of_distinct four s t (.act 0 .main) 0 hs trivial (fun _ => hd) ht hfirst⟩

/-- among four parties, of which 3 is Byzantine, 0 gets both bits into `bin_values` and three
messages of 3 in each of the AUX and the CONF phase -/
def attack : List (Lbl four) :=
  begin false 0 ++ begin false 1 ++ begin true 2 ++
    arrive [0, 1, 3] (.EST 0 false) 0 ++ arrive [2, 3, 0] (.EST 0 true) 0 ++ go 1 0 ++
    arrive [0, 3] (.AUX 0 false) 0 ++ arrive [3] (.AUX 0 true) 0 ++ go 1 0 ++
    arrive [3] (.CONF 0 [false]) 0 ++ arrive [3] (.CONF 0 [true]) 0 ++
    arrive [3] (.CONF 0 [false, true]) 0

/-- after the return of 0, the party 1 is led to a quorum for the bit `w` -/
def attackOn : Bool → List (Lbl four)
  | false =>
    arrive [0, 1, 3] (.EST 0 false) 1 ++ arrive [0, 1, 3] (.EST 0 false) 2 ++ go 1 1 ++ go 1 2 ++
      [1, 2].flatMap (arrive [0, 1, 2] (.AUX 0 false)) ++ go 1 1 ++ go 1 2 ++
      arrive [1, 2, 3] (.CONF 0 [false]) 1 ++ go 1 1
  | true =>
    [1, 2].flatMap (arrive [0, 2, 3] (.EST 0 true)) ++ go 1 1 ++ go 1 2 ++
      [1, 2].flatMap (arrive [1, 2, 3] (.AUX 0 true)) ++ go 1 1 ++ go 1 2 ++
      arrive [1, 2, 3] (.CONF 0 [true]) 1 ++ go 1 1

/-- the party 0 has returned both bits, and 1 can still be led to either one -/
def undecided (t : State four) : Bool :=
  decide (Out.confReturn 0 {false, true} ∈ (t 0).st.trace) &&
    decide (∀ w, (exec AtMostOnce t (attackOn w)).any
      fun u : State four => decide (Out.confReturn 0 {w} ∈ (u 1).st.trace))

theorem attack_not_bound : ¬ ∀ (s t : State four) (e : Lbl four) (r : ℤ),
    Reached four AtMostOnce s → AtMostOnce s e → (protocol four).next Msg.wellFormed s e = some t →
      FirstReturn s t r → Bound t r := by
  intro hclaim
  obtain ⟨s, t, hs, ht, hno, hund⟩ := exists_exec_step AtMostOnce attack (.act 0 .main)
    (fun s : State four => ∀ q, four.Honest q → (0, 4) ∉ (s q).st.marks)
    (fun t : State four => undecided t = true) (by decide +kernel)
  obtain ⟨hret, hon⟩ := (Bool.and_eq_true ..).mp hund
  obtain ⟨w, hw⟩ := hclaim s t (.act 0 .main) 0 hs trivial ht
    ⟨fun q hq V hV => hno q hq (mem_marks hV rfl),
      0, by decide, {false, true}, of_decide_eq_true hret⟩
  obtain ⟨u, hu, huw⟩ := exists_exec AtMostOnce t (attackOn w) _ (of_decide_eq_true hon w)
  exact hw u hu 1 (by decide) (of_decide_eq_true huw)

end BA
