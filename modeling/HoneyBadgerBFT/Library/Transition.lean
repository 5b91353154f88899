import Mathlib.Logic.Relation
import Mathlib.Tactic

/-!
# Transition systems given by a partial step function

A system is a partial function `next : S → E → Option S` (`none`: the label is not enabled) and a
predicate `ok` on states and labels that a run has to meet in every step (an assumption about the
environment).  `Reach next ok s t`: some run goes from `s` to `t`.

* `Reach.invariant`   a predicate kept by every step is kept by every run;
* `Reach.simulation`  another system follows every run, if it follows every step;
* `Reach.mono`        fewer assumptions, more runs;
* `Reach.restrict`    what holds at the end and never comes back has held in every step
                      (`Reach.restrict_next`: also after it);
* `exec`, `reach_of_exec`   a concrete run, given by its labels, reaches the state it computes;
* `sweep`, `reach_sweep`    so does one that is given by a schedule.
-/

namespace Trans
variable {S E : Type}

/-- one step of `next`, along a label that meets `ok` -/
def Step (next : S → E → Option S) (ok : S → E → Prop) (s t : S) : Prop :=
  ∃ e, ok s e ∧ next s e = some t

def Reach (next : S → E → Option S) (ok : S → E → Prop) : S → S → Prop :=
  Relation.ReflTransGen (Step next ok)

section
variable {next : S → E → Option S} {ok ok' : S → E → Prop} {s t u : S}

theorem Reach.refl (s : S) : Reach next ok s s := Relation.ReflTransGen.refl

theorem Reach.trans (h : Reach next ok s t) (h' : Reach next ok t u) : Reach next ok s u :=
  Relation.ReflTransGen.trans h h'

theorem Reach.tail (h : Reach next ok s t) (h' : Step next ok t u) : Reach next ok s u :=
  Relation.ReflTransGen.tail h h'

/-- **run rule**: what every step keeps, every run keeps -/
theorem Reach.invariant (I : S → Prop) (hI : ∀ s e t, I s → ok s e → next s e = some t → I t)
    (h : Reach next ok s t) (hs : I s) : I t := by
  induction h with
  | refl => exact hs
  | tail _ hstep ih =>
    obtain ⟨e, he, hn⟩ := hstep
    exact hI _ e _ ih he hn

/-- the run rule for an invariant whose step needs the state before it to be reachable -/
theorem Reach.invariant_of_reach (I : S → Prop)
    (hI : ∀ a e b, Reach next ok s a → I a → ok a e → next a e = some b → I b)
    (h : Reach next ok s t) (hs : I s) : I t := by
  induction h with
  | refl => exact hs
  | tail hr hstep ih =>
    obtain ⟨e, he, hn⟩ := hstep
    exact hI _ e _ hr ih he hn

/-- **simulation rule**: if a relation lets some run of the other system follow every step, it lets
some run of it follow every run -/
theorem Reach.simulation {S' E' : Type} {next' : S' → E' → Option S'} {okb : S' → E' → Prop}
    (R : S → S' → Prop) (hR : ∀ a e b a', R a a' → ok a e → next a e = some b →
      ∃ b', Reach next' okb a' b' ∧ R b b')
    (h : Reach next ok s t) {s' : S'} (hs : R s s') : ∃ t', Reach next' okb s' t' ∧ R t t' := by
  induction h with
  | refl => exact ⟨s', Reach.refl s', hs⟩
  | tail _ hstep ih =>
    obtain ⟨e, he, hn⟩ := hstep
    obtain ⟨a', hrun, ha⟩ := ih
    obtain ⟨b', hrun', hb⟩ := hR _ e _ a' ha he hn
    exact ⟨b', hrun.trans hrun', hb⟩

theorem Reach.mono (hok : ∀ s e, ok s e → ok' s e) (h : Reach next ok s t) :
    Reach next ok' s t :=
  h.invariant (Reach next ok' s)
    (fun _ e _ hs he hn => hs.tail ⟨e, hok _ e he, hn⟩) (Reach.refl s)

/-- **history rule**: a condition that is never regained and holds at the end, held in every step -/
theorem Reach.restrict {D : S → Prop}
    (hD : ∀ a e b, Reach next ok s a → ok a e → next a e = some b → D b → D a)
    (h : Reach next ok s t) (ht : D t) : Reach next (fun a e => ok a e ∧ D a) s t := by
  induction h with
  | refl => exact Reach.refl s
  | tail hr hstep ih =>
    obtain ⟨e, he, hn⟩ := hstep
    have hs := hD _ e _ hr he hn ht
    exact (ih hs).tail ⟨e, ⟨he, hs⟩, hn⟩

/-- the history rule, with the condition after each step -/
theorem Reach.restrict_next {D : S → Prop}
    (hD : ∀ a e b, Reach next ok s a → ok a e → next a e = some b → D b → D a)
    (h : Reach next ok s t) (ht : D t) :
    Reach next (fun a e => ok a e ∧ ∀ b, next a e = some b → D b) s t := by
  induction h with
  | refl => exact Reach.refl s
  | tail hr hstep ih =>
    obtain ⟨e, he, hn⟩ := hstep
    refine (ih (hD _ e _ hr he hn ht)).tail ⟨e, ⟨he, fun b hb => ?_⟩, hn⟩
    exact Option.some.inj (hn.symm.trans hb) ▸ ht

end

/-- the state after the labels `l`, if each of them is enabled and passes the test `ok` -/
def exec (next : S → E → Option S) (ok : S → E → Bool) : S → List E → Option S
  | s, [] => some s
  | s, e :: l => if ok s e then (next s e).bind fun t => exec next ok t l else none

theorem reach_of_exec {next : S → E → Option S} {okb : S → E → Bool} {ok : S → E → Prop}
    (hok : ∀ s e, okb s e = true → ok s e) (l : List E) :
    ∀ {s t : S}, exec next okb s l = some t → Reach next ok s t := by
  induction l with
  | nil =>
    intro s t h
    obtain rfl : s = t := Option.some.inj h
    exact Reach.refl s
  | cons e l ih =>
    intro s t h
    rw [exec] at h
    by_cases hb : okb s e = true
    · rw [if_pos hb] at h
      obtain ⟨u, hu, hrest⟩ := Option.bind_eq_some_iff.mp h
      exact ((Reach.refl s).tail ⟨e, hok s e hb, hu⟩).trans (ih hrest)
    · rw [if_neg hb] at h
      cases h

/-- a concrete run that ends well reaches a state that is good -/
theorem exists_reach_of_exec {next : S → E → Option S} {okb : S → E → Bool} {ok : S → E → Prop}
    (hok : ∀ s e, okb s e = true → ok s e) {good : S → Bool} {s : S} {l : List E}
    (h : (exec next okb s l).any good = true) : ∃ t, Reach next ok s t ∧ good t = true := by
  obtain ⟨t, ht, hgood⟩ := (Option.any_eq_true good _).mp h
  exact ⟨t, reach_of_exec hok l ht, hgood⟩

/-- a concrete run with one more step `e`, tested before and after this step -/
theorem exists_step_of_exec {next : S → E → Option S} {okb : S → E → Bool} {ok : S → E → Prop}
    (hok : ∀ s e, okb s e = true → ok s e) {pre post : S → Prop} [DecidablePred pre]
    [DecidablePred post] {s : S} {l : List E} {e : E}
    (h : (exec next okb s l).any
      (fun t => decide (pre t) && (next t e).any fun u => decide (post u)) = true) :
    ∃ t u, Reach next ok s t ∧ next t e = some u ∧ pre t ∧ post u := by
  obtain ⟨t, ht, hgood⟩ := exists_reach_of_exec hok h
  obtain ⟨hpre, hnext⟩ := (Bool.and_eq_true ..).mp hgood
  obtain ⟨u, hu, hpost⟩ := (Option.any_eq_true ..).mp hnext
  exact ⟨t, u, ht, hu, of_decide_eq_true hpre, of_decide_eq_true hpost⟩

/-- a schedule: the labels that `labels` gives, each where it is enabled, and this `n` times -/
def sweep (next : S → E → Option S) (labels : S → List E) : ℕ → S → S
  | 0, s => s
  | n + 1, s => sweep next labels n ((labels s).foldl (fun s e => (next s e).getD s) s)

theorem reach_sweep (next : S → E → Option S) (labels : S → List E) (n : ℕ) :
    ∀ s, Reach next (fun _ _ => True) s (sweep next labels n s) := by
  have hfold : ∀ (l : List E) (s : S),
      Reach next (fun _ _ => True) s (l.foldl (fun s e => (next s e).getD s) s) := by
    intro l
    induction l with
    | nil => exact Reach.refl
    | cons e l ih =>
      intro s
      refine Reach.trans ?_ (ih _)
      show Reach next (fun _ _ => True) s ((next s e).getD s)
      cases hn : next s e with
      | none => exact Reach.refl s
      | some t => exact (Reach.refl s).tail ⟨e, trivial, hn⟩
  induction n with
  | zero => exact Reach.refl
  | succ n ih => exact fun s => (hfold _ s).trans (ih _)

end Trans
