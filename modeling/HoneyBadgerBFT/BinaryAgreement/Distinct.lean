import HoneyBadgerBFT.BinaryAgreement.Conf
import HoneyBadgerBFT.BinaryAgreement.Redundant

/-!
# Binary agreement: how many parties stand behind a quorum

The tables hold one set of senders for each value, and the third tests of the AUX loop and of
`wait_for_conf_values` add up the sizes of several sets.  A Byzantine party that sends several values
is counted several times; an honest one sends one AUX and one CONF message in a round.  So `N-f`
parties stand behind a call that goes on, as long as no Byzantine party is in two of the sets where
the third test ends a loop (`Once`).
-/

namespace BA
open Async Trans Party

variable {C : Committee} {ok : State C → Lbl C → Prop} {s t : State C}

/-- the parties that have sent an AUX message for the round with its bit in `bin_values` -/
def auxFrom {n : ℕ} (nd : Node n (Party n) Msg) (r : ℤ) : Finset (Fin n) :=
  Finset.univ.filter fun q => ∃ v ∈ nd.st.binValues r, (q, .AUX r v) ∈ nd.rcvd

/-- the parties that have sent a CONF message for the round with its bits in `bin_values` -/
def confFrom {n : ℕ} (nd : Node n (Party n) Msg) (r : ℤ) : Finset (Fin n) :=
  Finset.univ.filter fun q => ∃ c ∈ confKeys, (∀ b ∈ c, b ∈ nd.st.binValues r) ∧
    (q, .CONF r c) ∈ nd.rcvd

/-- the keys of `conf_values[r]` with their bits in `bin_values` -/
def Party.keysIn {n : ℕ} (p : Party n) (r : ℤ) : Finset (List Bool) :=
  confKeys.toFinset.filter fun c => ∀ b ∈ c, b ∈ p.binValues r

/-- no bit has `N-f` senders, but together they have: the AUX loop ends by its third test -/
def Party.AuxBySum {n : ℕ} (f : ℕ) (p : Party n) : Prop :=
  (∀ v ∈ p.binValues p.r, (p.auxValues p.r v).card < n - f) ∧
    n - f ≤ ∑ v ∈ p.binValues p.r, (p.auxValues p.r v).card

/-- no key has `N-f` senders, but together they have, for `wait_for_conf_values` -/
def Party.ConfBySum {n : ℕ} (f : ℕ) (p : Party n) : Prop :=
  (∀ c ∈ p.keysIn p.r, (p.confValues p.r c).card < n - f) ∧ n - f ≤ p.confSum p.r

/-- of no Byzantine party two AUX messages have arrived for the round, with bits in `bin_values` -/
def AuxOnce (C : Committee) (nd : Node C.N (Party C.N) Msg) (r : ℤ) : Prop :=
  ∀ q, ¬ C.Honest q → ∀ v ∈ nd.st.binValues r, ∀ w ∈ nd.st.binValues r,
    (q, .AUX r v) ∈ nd.rcvd → (q, .AUX r w) ∈ nd.rcvd → v = w

/-- nor two different CONF messages -/
def ConfOnce (C : Committee) (nd : Node C.N (Party C.N) Msg) (r : ℤ) : Prop :=
  ∀ q, ¬ C.Honest q → ∀ c ∈ nd.st.keysIn r, ∀ d ∈ nd.st.keysIn r,
    (q, .CONF r c) ∈ nd.rcvd → (q, .CONF r d) ∈ nd.rcvd → c = d

instance {n : ℕ} (f : ℕ) (p : Party n) : Decidable (p.AuxBySum f) :=
  inferInstanceAs (Decidable (_ ∧ _))

instance {n : ℕ} (f : ℕ) (p : Party n) : Decidable (p.ConfBySum f) :=
  inferInstanceAs (Decidable (_ ∧ _))

instance (nd : Node C.N (Party C.N) Msg) (r : ℤ) : Decidable (AuxOnce C nd r) :=
  inferInstanceAs (Decidable (∀ _, _ → ∀ _ ∈ _, ∀ _ ∈ _, _ → _ → _))

instance (nd : Node C.N (Party C.N) Msg) (r : ℤ) : Decidable (ConfOnce C nd r) :=
  inferInstanceAs (Decidable (∀ _, _ → ∀ _ ∈ _, ∀ _ ∈ _, _ → _ → _))

/-- the step is no test of the two loops, or one that the third test does not end, or one for which
no Byzantine party is counted twice -/
def Once (s : State C) : Lbl C → Prop
  | .act p .main =>
    ((s p).st.pc = .aux → (s p).st.AuxBySum C.f → AuxOnce C (s p) (s p).st.r) ∧
      ((s p).st.pc = .conf → (s p).st.ConfBySum C.f → ConfOnce C (s p) (s p).st.r)
  | _ => True

instance (s : State C) : DecidablePred (Once s)
  | .act _ .main => inferInstanceAs (Decidable (_ ∧ _))
  | .act _ (.input _) => isTrue trivial
  | .act _ (.coin _) => isTrue trivial
  | .deliver _ _ _ => isTrue trivial

/-! ## the tables and the messages -/

section
variable (h : Reached C ok s) {p : Fin C.N} (hp : C.Honest p) (r : ℤ)
include h hp

theorem mem_auxValues {q : Fin C.N} {v : Bool} :
    q ∈ (s p).st.auxValues r v ↔ (q, .AUX r v) ∈ (s p).rcvd :=
  ⟨fun hm => (reached_heard h p hp).aux q r v hm,
    fun hm => reached_entered h p hp q (.AUX r v) hm rfl⟩

theorem mem_confValues {q : Fin C.N} {c : List Bool} (hc : c ∈ confKeys) :
    q ∈ (s p).st.confValues r c ↔ (q, .CONF r c) ∈ (s p).rcvd :=
  ⟨fun hm => (reached_heard h p hp).conf q r c hm,
    fun hm => reached_entered h p hp q (.CONF r c) hm (decide_eq_true hc)⟩

theorem auxFrom_eq :
    auxFrom (s p) r = ((s p).st.binValues r).biUnion ((s p).st.auxValues r) := by
  ext q
  rw [auxFrom, Finset.mem_filter, Finset.mem_biUnion, and_iff_right (Finset.mem_univ q)]
  exact exists_congr fun v => and_congr_right fun _ => (mem_auxValues h hp r).symm

theorem confFrom_eq :
    confFrom (s p) r = ((s p).st.keysIn r).biUnion ((s p).st.confValues r) := by
  ext q
  rw [confFrom, Finset.mem_filter, Finset.mem_biUnion, and_iff_right (Finset.mem_univ q)]
  refine exists_congr fun c => ?_
  rw [keysIn, Finset.mem_filter, List.mem_toFinset, and_assoc]
  exact and_congr_right fun hc => and_congr_right fun _ => (mem_confValues h hp r hc).symm

/-- an honest party is in one of the sets of a round at most -/
theorem auxOnce_iff : AuxOnce C (s p) r ↔
    VotesOnce ((s p).st.binValues r) ((s p).st.auxValues r) := by
  constructor
  · intro hbyz v hv w hw q h1 h2
    by_cases hq : C.Honest q
    · exact aux_unique h hq (aux_sent h hp hq h1) (aux_sent h hp hq h2)
    · exact hbyz q hq v hv w hw ((mem_auxValues h hp r).mp h1) ((mem_auxValues h hp r).mp h2)
  · intro hone q _ v hv w hw h1 h2
    exact hone v hv w hw q ((mem_auxValues h hp r).mpr h1) ((mem_auxValues h hp r).mpr h2)

theorem confOnce_iff : ConfOnce C (s p) r ↔
    VotesOnce ((s p).st.keysIn r) ((s p).st.confValues r) := by
  have hkey : ∀ {c}, c ∈ (s p).st.keysIn r → c ∈ confKeys := fun hc =>
    List.mem_toFinset.mp (Finset.mem_filter.mp hc).1
  constructor
  · intro hbyz c hc d hd q h1 h2
    by_cases hq : C.Honest q
    · exact conf_unique h hq (conf_sent h hp hq h1) (conf_sent h hp hq h2)
    · exact hbyz q hq c hc d hd ((mem_confValues h hp r (hkey hc)).mp h1)
        ((mem_confValues h hp r (hkey hd)).mp h2)
  · intro hone q _ c hc d hd h1 h2
    exact hone c hc d hd q ((mem_confValues h hp r (hkey hc)).mpr h1)
      ((mem_confValues h hp r (hkey hd)).mpr h2)

end

/-- the sum of the third test of `wait_for_conf_values` is one over a set of keys -/
theorem confSum_eq_sum {n : ℕ} (p : Party n) (r : ℤ) :
    p.confSum r = ∑ c ∈ p.keysIn r, (p.confValues r c).card := by
  rw [keysIn, Finset.sum_filter, List.sum_toFinset _ (by decide), confSum_eq]
  simp [confKeys, Nat.add_assoc]

/-! ## the step that leaves a loop -/

theorem aux_exit {n f : ℕ} {p p' : Party n} {a : Party.Act} (h : p.act f a = some p')
    (hpc : p.pc = .aux) (hpc' : p'.pc ≠ .aux) :
    a = .main ∧ ∃ V, p.auxExit f = some V := by
  rcases act_cases h with ⟨v, -, e, -⟩ | ⟨e, -⟩ | ⟨e, -⟩ | ⟨-, e, rfl⟩ | ⟨e, -⟩ | ⟨V, b, e, -⟩
  · rw [hpc] at e; cases e
  · rw [hpc] at e; cases e
  · rw [hpc] at e; cases e
  · cases hx : p.auxExit f with
    | none =>
      rw [checkAux, hx] at hpc'
      exact absurd hpc hpc'
    | some V => exact ⟨e, V, rfl⟩
  · rw [hpc] at e; cases e
  · rw [hpc] at e; cases e

theorem conf_exit {n f : ℕ} {p p' : Party n} {a : Party.Act} (h : p.act f a = some p')
    (hpc : p.pc = .conf) (hpc' : p'.pc ≠ .conf) :
    a = .main ∧ ∃ V, p.confExit f = some V := by
  rcases act_cases h with ⟨v, -, e, -⟩ | ⟨e, -⟩ | ⟨e, -⟩ | ⟨e, -⟩ | ⟨-, e, rfl⟩ | ⟨V, b, e, -⟩
  · rw [hpc] at e; cases e
  · rw [hpc] at e; cases e
  · rw [hpc] at e; cases e
  · rw [hpc] at e; cases e
  · cases hx : p.confExit f with
    | none =>
      rw [checkConf, hx] at hpc'
      exact absurd hpc hpc'
    | some V => exact ⟨e, V, rfl⟩
  · rw [hpc] at e; cases e

theorem auxExit_sum {n f : ℕ} {p : Party n} {V : Finset Bool} (h : p.auxExit f = some V)
    (hsmall : ∀ v ∈ p.binValues p.r, (p.auxValues p.r v).card < n - f) : p.AuxBySum f := by
  rcases auxExit_cases h with ⟨v, -, hv, hcard⟩ | ⟨-, hsum⟩
  · exact absurd hcard (not_le.mpr (hsmall v hv))
  · exact ⟨hsmall, hsum⟩

theorem mem_keysIn {n : ℕ} {p : Party n} {r : ℤ} {v : Bool} (hv : v ∈ p.binValues r) :
    [v] ∈ p.keysIn r := by
  refine Finset.mem_filter.mpr ⟨List.mem_toFinset.mpr ?_, ?_⟩
  · cases v <;> decide
  · intro b hb
    rwa [List.mem_singleton.mp hb]

theorem confExit_sum {n f : ℕ} {p : Party n} {V : Finset Bool} (h : p.confExit f = some V)
    (hsmall : ∀ c ∈ p.keysIn p.r, (p.confValues p.r c).card < n - f) : p.ConfBySum f := by
  rcases confExit_cases h with ⟨v, -, hv, hcard⟩ | ⟨-, -, hsum⟩
  · exact absurd hcard (not_le.mpr (hsmall [v] (mem_keysIn hv)))
  · exact ⟨hsmall, hsum⟩

/-! ## the points of a round -/

/-- an action takes the main loop at most to the next point, or to the next round -/
theorem act_advance {n f : ℕ} {p p' : Party n} (hc : Call f p) {a : Party.Act}
    (h : p.act f a = some p') : p'.r = p.r ∧ p'.pc.stage = p.pc.stage ∨
      p'.r = p.r ∧ p'.pc.stage = p.pc.stage + 1 ∨
        p.pc.stage = 5 ∧ p'.r = p.r + 1 ∧ p'.pc.stage = 1 := by
  rcases act_cases h with ⟨v, -, hpc, rfl⟩ | ⟨hpc, -, rfl⟩ | ⟨hpc, -, rfl⟩ | ⟨hpc, -, rfl⟩ |
    ⟨hpc, -, rfl⟩ | ⟨V, b, hpc, -, rfl⟩ <;> rw [hpc]
  · exact .inr (.inl ⟨(hc.current.input hpc).1.symm, rfl⟩)
  · refine .inr (.inl ?_)
    unfold startRound
    dsimp only
    split <;> exact ⟨rfl, rfl⟩
  · unfold checkBin
    split
    · exact .inl ⟨rfl, congrArg Pc.stage hpc⟩
    · exact .inr (.inl ⟨rfl, rfl⟩)
  · -- the CONF message of this round has not been sent yet
    unfold checkAux
    split
    · exact .inl ⟨rfl, congrArg Pc.stage hpc⟩
    · next V _ =>
      have hnew : p.confSent p.r (iter V) = false := by
        rw [← Bool.not_eq_true]
        intro hs
        have := hc.current.confSent p.r (iter V) hs
        rw [show 3 = p.pc.stage by rw [hpc]; rfl] at this
        exact not_past this
      rw [if_pos hnew]
      exact .inr (.inl ⟨rfl, rfl⟩)
  · unfold checkConf
    split
    · exact .inl ⟨rfl, congrArg Pc.stage hpc⟩
    · exact .inr (.inl ⟨rfl, rfl⟩)
  · unfold afterCoin emit
    dsimp only
    cases setNewEstimate V b p.alreadyDecided with
    | abandonedNodeError => exact .inr (.inl ⟨rfl, rfl⟩)
    | next e d dec => cases dec <;> exact .inr (.inr ⟨rfl, rfl, rfl⟩)

/-- a point that the main loop passes is the one it stands at -/
theorem act_past {n f : ℕ} {p p' : Party n} (hc : Call f p) {a : Party.Act}
    (h : p.act f a = some p') {r : ℤ} {k : ℕ} (hk : 1 ≤ k ∧ k < 5) (hold : ¬ p.Past r k)
    (hnew : p'.Past r k) : r = p.r ∧ p.pc.stage = k ∧ p'.pc.stage = k + 1 := by
  unfold Past at hold hnew
  rcases act_advance hc h with ⟨h1, h2⟩ | ⟨h1, h2⟩ | ⟨h1, h2, h3⟩ <;> omega

theorem stage_aux {pc : Pc} (h : pc.stage = 3) : pc = .aux := by
  cases pc <;> first | rfl | cases h

theorem stage_conf {pc : Pc} (h : pc.stage = 4) : pc = .conf := by
  cases pc <;> first | rfl | cases h

/-! ## the committee -/

/-- the step that moves the main loop of a party is an action of that party -/
theorem act_of_pc {e : Lbl C} (hn : (protocol C).next Msg.wellFormed s e = some t) {p : Fin C.N}
    (hpc : (t p).st.pc ≠ (s p).st.pc) : ∃ a, e = .act p a ∧ (s p).st.act C.f a = some (t p).st := by
  rcases next_at hn p with heq | ⟨src, m, -, -, -, -, heq⟩ | ⟨a, x, rfl, -, hx, heq⟩ <;>
    rw [heq] at hpc
  · exact absurd rfl hpc
  · exact absurd (recv_sameMain C.f src m (s p).st).pc hpc
  · exact ⟨a, rfl, heq ▸ hx⟩

section
variable (h : Reached C ok s) {e : Lbl C} (hn : (protocol C).next Msg.wellFormed s e = some t)
  {p : Fin C.N} (hp : C.Honest p)
include h hn hp

/-- **the step that leaves the AUX loop** -/
theorem leave_aux (hpc : (s p).st.pc = .aux) (hpc' : (t p).st.pc ≠ .aux) :
    e = .act p .main ∧
      (((s p).st.AuxBySum C.f → AuxOnce C (s p) (s p).st.r) →
        C.N - C.f ≤ (auxFrom (s p) (s p).st.r).card) := by
  obtain ⟨a, rfl, ha⟩ := act_of_pc hn (hpc ▸ hpc')
  obtain ⟨rfl, V, hV⟩ := aux_exit ha hpc hpc'
  refine ⟨rfl, fun hone => ?_⟩
  rw [auxFrom_eq h hp]
  exact quorum_of_once (fun hsmall => (auxExit_sum hV hsmall).2) fun hsmall =>
    (auxOnce_iff h hp _).mp (hone (auxExit_sum hV hsmall))

/-- **the step that returns from `wait_for_conf_values`** -/
theorem leave_conf (hpc : (s p).st.pc = .conf) (hpc' : (t p).st.pc ≠ .conf) :
    e = .act p .main ∧
      (((s p).st.ConfBySum C.f → ConfOnce C (s p) (s p).st.r) →
        C.N - C.f ≤ (confFrom (s p) (s p).st.r).card) := by
  obtain ⟨a, rfl, ha⟩ := act_of_pc hn (hpc ▸ hpc')
  obtain ⟨rfl, V, hV⟩ := conf_exit ha hpc hpc'
  refine ⟨rfl, fun hone => ?_⟩
  rw [confFrom_eq h hp]
  refine quorum_of_once (fun hsmall => ?_) fun hsmall =>
    (confOnce_iff h hp _).mp (hone (confExit_sum hV hsmall))
  rw [← confSum_eq_sum]
  exact (confExit_sum hV hsmall).2

omit hn

/-- a sum that is just `N-f` -/
theorem auxFrom_iff
    (hsum : ∑ v ∈ (s p).st.binValues (s p).st.r, ((s p).st.auxValues (s p).st.r v).card =
      C.N - C.f) :
    C.N - C.f ≤ (auxFrom (s p) (s p).st.r).card ↔ AuxOnce C (s p) (s p).st.r := by
  rw [auxFrom_eq h hp, auxOnce_iff h hp]
  exact quorum_iff_once hsum

theorem confFrom_iff (hsum : (s p).st.confSum (s p).st.r = C.N - C.f) :
    C.N - C.f ≤ (confFrom (s p) (s p).st.r).card ↔ ConfOnce C (s p) (s p).st.r := by
  rw [confFrom_eq h hp, confOnce_iff h hp]
  exact quorum_iff_once ((confSum_eq_sum _ _).symm.trans hsum)

end

theorem next_auxFrom {e : Lbl C} (hn : (protocol C).next Msg.wellFormed s e = some t) (p : Fin C.N)
    (r : ℤ) : (auxFrom (s p) r).card ≤ (auxFrom (t p) r).card := by
  refine Finset.card_le_card fun q hq => ?_
  obtain ⟨hu, v, hv, hm⟩ := Finset.mem_filter.mp hq
  exact Finset.mem_filter.mpr ⟨hu, v, (next_grows hn p).bin r hv, next_rcvd hn p hm⟩

theorem next_confFrom {e : Lbl C} (hn : (protocol C).next Msg.wellFormed s e = some t) (p : Fin C.N)
    (r : ℤ) : (confFrom (s p) r).card ≤ (confFrom (t p) r).card := by
  refine Finset.card_le_card fun q hq => ?_
  obtain ⟨hu, c, hc, hb, hm⟩ := Finset.mem_filter.mp hq
  exact Finset.mem_filter.mpr
    ⟨hu, c, hc, fun b h => (next_grows hn p).bin r (hb b h), next_rcvd hn p hm⟩

/-- the quorums of the rounds in which the call of `p` has gone on -/
def Manned (s : State C) (p : Fin C.N) : Prop :=
  (∀ r, (s p).st.Past r 3 → C.N - C.f ≤ (auxFrom (s p) r).card) ∧
    ∀ r, (s p).st.Past r 4 → C.N - C.f ≤ (confFrom (s p) r).card

/-- a step that takes the call past a point is an action of its party -/
theorem next_past (h : Reached C ok s) {e : Lbl C}
    (hn : (protocol C).next Msg.wellFormed s e = some t) {p : Fin C.N} (hp : C.Honest p) {r : ℤ}
    {k : ℕ} (hk : 1 ≤ k ∧ k < 5) (hold : ¬ (s p).st.Past r k) (hnew : (t p).st.Past r k) :
    r = (s p).st.r ∧ (s p).st.pc.stage = k ∧ (t p).st.pc.stage = k + 1 := by
  rcases next_at hn p with heq | ⟨src, m, -, -, -, -, heq⟩ | ⟨a, x, rfl, -, hx, heq⟩ <;>
    rw [heq] at hnew
  · exact absurd hnew hold
  · have hs := recv_sameMain C.f src m (s p).st
    replace hnew : ((s p).st.recv C.f src m).Past r k := hnew
    rw [Past, hs.r, hs.pc] at hnew
    exact absurd hnew hold
  · rw [heq]
    exact act_past (reached_call h p hp) hx hk hold hnew

/-- **run lemma**: if no Byzantine party is counted twice where a third test ends a loop, distinct
parties stand behind every round -/
theorem manned_of_once (h : Reached C Once s) : ∀ p, C.Honest p → Manned s p := by
  refine Reach.invariant_of_reach (fun s : State C => ∀ p, C.Honest p → Manned s p) ?_ h ?_
  · intro s e t hs hold hone hn p hp
    refine ⟨fun r hr => ?_, fun r hr => ?_⟩
    · refine le_trans ?_ (next_auxFrom hn p r)
      by_cases hpast : (s p).st.Past r 3
      · exact (hold p hp).1 r hpast
      · obtain ⟨rfl, h3, h4⟩ := next_past hs hn hp (by omega) hpast hr
        have hpc := stage_aux h3
        obtain ⟨rfl, hquorum⟩ := leave_aux hs hn hp hpc fun e => by rw [e] at h4; cases h4
        exact hquorum (hone.1 hpc)
    · refine le_trans ?_ (next_confFrom hn p r)
      by_cases hpast : (s p).st.Past r 4
      · exact (hold p hp).2 r hpast
      · obtain ⟨rfl, h4, h5⟩ := next_past hs hn hp (by omega) hpast hr
        have hpc := stage_conf h4
        obtain ⟨rfl, hquorum⟩ := leave_conf hs hn hp hpc fun e => by rw [e] at h5; cases h5
        exact hquorum (hone.2 hpc)
  · intro p _
    refine ⟨fun r hr => ?_, fun r hr => ?_⟩ <;>
    · obtain ⟨h0, h1⟩ := hr
      change r < 0 ∨ r = 0 ∧ _ < 0 at h1
      omega

/-- **distinct parties behind a quorum**: in a run in which no Byzantine party has sent two values
where a third test ends a loop, an honest party has heard `N-f` parties in every loop that it has
left.  In any run one step does so, if it meets the condition; where the sizes add up to just `N-f`,
only if -/
theorem distinct_senders (C : Committee) :
    (∀ s, Reached C Once s → ∀ p, C.Honest p → Manned s p) ∧
    ∀ ok s t e, Reached C ok s → (protocol C).next Msg.wellFormed s e = some t → ∀ p, C.Honest p →
      ((s p).st.pc = .aux → (t p).st.pc ≠ .aux →
        (((s p).st.AuxBySum C.f → AuxOnce C (s p) (s p).st.r) →
          C.N - C.f ≤ (auxFrom (s p) (s p).st.r).card) ∧
        (∑ v ∈ (s p).st.binValues (s p).st.r, ((s p).st.auxValues (s p).st.r v).card = C.N - C.f →
          (C.N - C.f ≤ (auxFrom (s p) (s p).st.r).card ↔ AuxOnce C (s p) (s p).st.r))) ∧
      ((s p).st.pc = .conf → (t p).st.pc ≠ .conf →
        (((s p).st.ConfBySum C.f → ConfOnce C (s p) (s p).st.r) →
          C.N - C.f ≤ (confFrom (s p) (s p).st.r).card) ∧
        ((s p).st.confSum (s p).st.r = C.N - C.f →
          (C.N - C.f ≤ (confFrom (s p) (s p).st.r).card ↔ ConfOnce C (s p) (s p).st.r))) :=
  ⟨fun _ h => manned_of_once h, fun _ _ _ _ h hn _ hp =>
    ⟨fun hpc hpc' => ⟨(leave_aux h hn hp hpc hpc').2, auxFrom_iff h hp⟩,
      fun hpc hpc' => ⟨(leave_conf h hn hp hpc hpc').2, confFrom_iff h hp⟩⟩⟩

/-- the AUX loop of the party 0 ends by its third test, with the bit 0 from two honest parties and
the bit 1 from the Byzantine one -/
theorem distinct_senders_four : ∃ s t : State four, Reached four Once s ∧
    (3, .AUX 0 true) ∈ (s 0).rcvd ∧ (s 0).st.AuxBySum 1 ∧
    (protocol four).next Msg.wellFormed s (.act 0 .main) = some t ∧
      3 ≤ (auxFrom (s 0) (s 0).st.r).card ∧ Manned t 0 := by
  obtain ⟨s, t, hs, ht, ⟨hpc, hsent, hsum, hone⟩, hpc'⟩ := exists_exec_step Once
    (mixedRun.take 37) (.act 0 .main)
    (fun s : State four => (s 0).st.pc = .aux ∧ (3, .AUX 0 true) ∈ (s 0).rcvd ∧
      (s 0).st.AuxBySum 1 ∧ AuxOnce four (s 0) (s 0).st.r)
    (fun t : State four => (t 0).st.pc ≠ .aux) (by decide +kernel)
  obtain ⟨hrun, hstep⟩ := distinct_senders four
  have hok : Once s (.act 0 .main) :=
    ⟨fun _ _ => hone, fun h => absurd (hpc.symm.trans h) (by decide)⟩
  exact ⟨s, t, hs, hsent, hsum, ht,
    ((hstep Once s t _ hs ht 0 (by decide)).1 hpc hpc').1 fun _ => hone,
    hrun t (hs.tail ⟨_, hok, ht⟩) 0 (by decide)⟩

/-- in `attack`, the party 0 leaves both loops of its first round with two parties behind it -/
theorem attack_not_manned :
    (¬ ∀ (s t : State four) e p, Reached four AtMostOnce s →
      (protocol four).next Msg.wellFormed s e = some t → four.Honest p → (s p).st.pc = .aux →
        (t p).st.pc ≠ .aux → four.N - four.f ≤ (auxFrom (s p) (s p).st.r).card) ∧
    ¬ ∀ (s t : State four) e p, Reached four AtMostOnce s →
      (protocol four).next Msg.wellFormed s e = some t → four.Honest p → (s p).st.pc = .conf →
        (t p).st.pc ≠ .conf → four.N - four.f ≤ (confFrom (s p) (s p).st.r).card := by
  constructor <;> intro hclaim
  · obtain ⟨s, t, hs, ht, ⟨hpc, htwo⟩, hpc'⟩ := exists_exec_step AtMostOnce (attack.take 19)
      (.act 0 .main)
      (fun s : State four => (s 0).st.pc = .aux ∧ (auxFrom (s 0) (s 0).st.r).card = 2)
      (fun t : State four => (t 0).st.pc ≠ .aux) (by decide +kernel)
    have := hclaim s t _ 0 hs ht (by decide) hpc hpc'
    rw [htwo] at this
    exact absurd this (by decide)
  · obtain ⟨s, t, hs, ht, ⟨hpc, hone⟩, hpc'⟩ := exists_exec_step AtMostOnce attack (.act 0 .main)
      (fun s : State four => (s 0).st.pc = .conf ∧ (confFrom (s 0) (s 0).st.r).card = 1)
      (fun t : State four => (t 0).st.pc ≠ .conf) (by decide +kernel)
    have := hclaim s t _ 0 hs ht (by decide) hpc hpc'
    rw [hone] at this
    exact absurd this (by decide)

end BA
