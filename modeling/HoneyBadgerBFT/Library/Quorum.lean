import Mathlib.Algebra.Order.BigOperators.Group.Finset
import Mathlib.Data.Fintype.Card
import Mathlib.Data.Fin.Basic
import Mathlib.Tactic

/-!
# Quorums of a committee with Byzantine members

`Committee`: `N` parties, at most `f` of them (the set `byz`) Byzantine, `N ≥ 3f+1`.  The three
bounds are fields, so every statement about a committee may use them.

* `exists_honest`        `f+1` parties include an honest one;
* `quorum_inter`         two sets of `N-f` parties share an honest one;
* `honest_le_card`       a set of `k+f` parties has `k` honest ones;
* `exists_majority_bit`  of the members of a quorum, `f+1` agree on a bit;
* `quorum_of_once`       a sum of sizes that reaches `N-f` shows a quorum, if nobody votes twice.
-/

/-! ## votes in several sets -/

section
variable {ι α : Type} [DecidableEq ι] [DecidableEq α] {I : Finset ι} {g : ι → Finset α} {k : ℕ}

/-- no voter is in two of the sets -/
def VotesOnce (I : Finset ι) (g : ι → Finset α) : Prop :=
  ∀ i ∈ I, ∀ j ∈ I, ∀ x, x ∈ g i → x ∈ g j → i = j

/-- **double counting**: the sum of the sizes counts a voter who is in two of the sets twice -/
theorem card_biUnion_lt {i j : ι} (hi : i ∈ I) (hj : j ∈ I) (hne : i ≠ j) {x : α} (hxi : x ∈ g i)
    (hxj : x ∈ g j) : (I.biUnion g).card < ∑ i ∈ I, (g i).card := by
  have hunion : I.biUnion g = g i ∪ (I.erase i).biUnion g := by
    rw [← Finset.biUnion_insert, Finset.insert_erase hi]
  have hinter : 0 < (g i ∩ (I.erase i).biUnion g).card := by
    refine Finset.card_pos.mpr ⟨x, Finset.mem_inter.mpr ⟨hxi, Finset.mem_biUnion.mpr ⟨j, ?_, hxj⟩⟩⟩
    exact Finset.mem_erase.mpr ⟨hne.symm, hj⟩
  have hcard := Finset.card_union_add_card_inter (g i) ((I.erase i).biUnion g)
  have hle : ((I.erase i).biUnion g).card ≤ ∑ j ∈ I.erase i, (g j).card := Finset.card_biUnion_le
  have hsum := Finset.add_sum_erase I (fun i => (g i).card) hi
  rw [hunion]
  omega

omit [DecidableEq ι] in
theorem VotesOnce.card (h : VotesOnce I g) : (I.biUnion g).card = ∑ i ∈ I, (g i).card := by
  refine Finset.card_biUnion fun i hi j hj hne => Finset.disjoint_left.mpr fun x hxi hxj => ?_
  exact hne (h i hi j hj x hxi hxj)

omit [DecidableEq ι] in
/-- a set that is large enough, or a sum that counts nobody twice, is a quorum of distinct voters -/
theorem quorum_of_once (hone : (∀ i ∈ I, (g i).card < k) → k ≤ ∑ i ∈ I, (g i).card)
    (h : (∀ i ∈ I, (g i).card < k) → VotesOnce I g) : k ≤ (I.biUnion g).card := by
  by_cases hsmall : ∀ i ∈ I, (g i).card < k
  · rw [(h hsmall).card]
    exact hone hsmall
  · push Not at hsmall
    obtain ⟨i, hi, hk⟩ := hsmall
    exact hk.trans (Finset.card_le_card (Finset.subset_biUnion_of_mem g hi))

/-- a sum that is just a quorum is one of distinct voters only if it counts nobody twice -/
theorem quorum_iff_once (hsum : ∑ i ∈ I, (g i).card = k) :
    k ≤ (I.biUnion g).card ↔ VotesOnce I g := by
  constructor
  · intro hk i hi j hj x hxi hxj
    by_contra hne
    have := card_biUnion_lt hi hj hne hxi hxj
    omega
  · intro h
    rw [h.card, hsum]

end

/-! ## committees -/

/-- `N` parties, at most `f` of which (those of `byz`) are Byzantine -/
structure Committee where
  N : ℕ
  f : ℕ
  byz : Finset (Fin N)
  resilient : 3 * f + 1 ≤ N
  faulty : byz.card ≤ f

namespace Committee
variable (C : Committee)

def Honest (p : Fin C.N) : Prop := p ∉ C.byz

instance (p : Fin C.N) : Decidable (C.Honest p) := inferInstanceAs (Decidable (p ∉ C.byz))

instance : NeZero C.N := ⟨by have := C.resilient; omega⟩

def honest : Finset (Fin C.N) := Finset.univ.filter fun p => C.Honest p

/-- four parties, the last of them Byzantine -/
def four : Committee := ⟨4, 1, {3}, by decide, by decide⟩

variable {C}

theorem mem_honest {p : Fin C.N} : p ∈ C.honest ↔ C.Honest p := by simp [honest]

theorem honest_le_card {A : Finset (Fin C.N)} {k : ℕ} (h : k + C.f ≤ A.card) :
    k ≤ (A.filter fun p => C.Honest p).card := by
  have hsplit := Finset.card_filter_add_card_filter_not (s := A) (p := fun p => C.Honest p)
  have hle : (A.filter fun p => ¬ C.Honest p).card ≤ C.byz.card := by
    apply Finset.card_le_card
    intro p hp
    exact not_not.mp (Finset.mem_filter.mp hp).2
  have := C.faulty
  omega

theorem card_honest : C.N - C.f ≤ C.honest.card := by
  apply honest_le_card
  rw [Finset.card_univ, Fintype.card_fin]
  have := C.resilient
  omega

theorem exists_honest {A : Finset (Fin C.N)} (h : C.f + 1 ≤ A.card) : ∃ p ∈ A, C.Honest p := by
  have hpos : 1 ≤ (A.filter fun p => C.Honest p).card := honest_le_card (by omega)
  obtain ⟨p, hp⟩ := Finset.card_pos.mp hpos
  exact ⟨p, (Finset.mem_filter.mp hp).1, (Finset.mem_filter.mp hp).2⟩

/-- two sets of parties with more than `N+f` members together share an honest one -/
theorem exists_honest_inter {A B : Finset (Fin C.N)} (h : C.N + C.f < A.card + B.card) :
    ∃ p, p ∈ A ∧ p ∈ B ∧ C.Honest p := by
  have hunion : (A ∪ B).card ≤ C.N := by
    simpa using Finset.card_le_univ (A ∪ B)
  have hinter := Finset.card_union_add_card_inter A B
  obtain ⟨p, hp, hh⟩ := exists_honest (A := A ∩ B) (by omega)
  exact ⟨p, (Finset.mem_inter.mp hp).1, (Finset.mem_inter.mp hp).2, hh⟩

/-- **quorum intersection** -/
theorem quorum_inter {A B : Finset (Fin C.N)} (hA : C.N - C.f ≤ A.card)
    (hB : C.N - C.f ≤ B.card) : ∃ p, p ∈ A ∧ p ∈ B ∧ C.Honest p := by
  apply exists_honest_inter
  have := C.resilient
  omega

/-- a set that holds all honest parties is a quorum -/
theorem quorum_of_honest {A : Finset (Fin C.N)} (h : ∀ p, C.Honest p → p ∈ A) :
    C.N - C.f ≤ A.card :=
  card_honest.trans (Finset.card_le_card fun p hp => h p (mem_honest.mp hp))

/-- if every member of a quorum holds a bit, then `f+1` of them hold the same one -/
theorem exists_majority_bit {B : Finset (Fin C.N)} (hB : C.N - C.f ≤ B.card)
    (R : Fin C.N → Bool → Prop) (h : ∀ p ∈ B, ∃ b, R p b) :
    ∃ b, ∃ A ⊆ B, C.f + 1 ≤ A.card ∧ ∀ p ∈ A, R p b := by
  classical
  by_contra hno
  push Not at hno
  have hsmall : ∀ b, (B.filter fun p => R p b).card ≤ C.f := by
    intro b
    by_contra hc
    obtain ⟨p, hp, hR⟩ := hno b (B.filter fun p => R p b) (Finset.filter_subset _ _) (by omega)
    exact hR (Finset.mem_filter.mp hp).2
  have hcover : B ⊆ (B.filter fun p => R p true) ∪ (B.filter fun p => R p false) := by
    intro p hp
    obtain ⟨b, hb⟩ := h p hp
    cases b with
    | true => exact Finset.mem_union_left _ (Finset.mem_filter.mpr ⟨hp, hb⟩)
    | false => exact Finset.mem_union_right _ (Finset.mem_filter.mpr ⟨hp, hb⟩)
  have hle := (Finset.card_le_card hcover).trans (Finset.card_union_le _ _)
  have h1 := hsmall true
  have h2 := hsmall false
  have := C.resilient
  omega

end Committee
