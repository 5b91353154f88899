import HoneyBadgerBFT.BinaryAgreement.Conf
import HoneyBadgerBFT.BinaryAgreement.Delivery

/-!
# Binary agreement: progress, and what a quitting party leaves behind

`Settled`: every message between honest parties has arrived and every honest call waits or has
returned.  In such a state every honest party has decided, as long as those that have quit are not
needed any more (`QuitSafe`): a party that has returned relays no EST message, also not for the
rounds that the others are still in.

* `progress`     a settled state in which quitting did no harm has no undecided party;
* `stuck`        two slow parties that wait for a relay that nobody makes.
-/

namespace BA
open Async Trans Party

variable {C : Committee} {s : State C}

/-- the call is in one of its waits on `bv_signal`, and the signal is not set -/
def Blocked (s : State C) (p : Fin C.N) : Prop :=
  (s p).st.parked = true ∧ (s p).st.bvSignal = false

instance (p : Fin C.N) : Decidable (Blocked s p) := inferInstanceAs (Decidable (_ ∧ _))

/-- the honest parties have nothing more to do: every call has returned, or it waits and has every
message that an honest party has sent to it -/
def Settled (s : State C) : Prop :=
  ∀ p, C.Honest p → (s p).st.pc = .returned ∨ Blocked s p ∧ Delivered (protocol C) s p

instance (s : State C) : Decidable (Settled s) :=
  inferInstanceAs (Decidable (∀ p, C.Honest p → _ ∨ _ ∧ _))

/-- every honest call has returned, or it waits, perhaps for the coin, and has every message that an
honest party has sent to it -/
def Stalled (s : State C) : Prop :=
  ∀ p, C.Honest p → (s p).st.pc = .returned ∨
    (Blocked s p ∨ ∃ V, (s p).st.pc = .coin V) ∧ Delivered (protocol C) s p

theorem Settled.stalled (h : Settled s) : Stalled s := fun p hp =>
  (h p hp).imp_right fun hw => ⟨.inl hw.1, hw.2⟩

/-- the call has returned without the relay of `EST r v`, a message of a round it took part in -/
def Owes (s : State C) (r : ℤ) (v : Bool) (p : Fin C.N) : Prop :=
  (s p).st.pc = .returned ∧ r ≤ (s p).st.r ∧ .EST r v ∉ (s p).st.sent

instance (r : ℤ) (v : Bool) (p : Fin C.N) : Decidable (Owes s r v p) :=
  inferInstanceAs (Decidable (_ ∧ _ ∧ _))

/-- the honest parties that have broadcast `EST r v` -/
def estSenders (s : State C) (r : ℤ) (v : Bool) : Finset (Fin C.N) :=
  C.honest.filter fun p => .EST r v ∈ (s p).st.sent

/-- an honest call is still in the round `r` -/
def LiveIn (s : State C) (r : ℤ) : Prop :=
  ∃ q, C.Honest q ∧ (s q).st.pc ≠ .returned ∧ (s q).st.r = r

/-- in a round that somebody is still in, `2f+1` of the honest parties do not owe the relay of a
message that `f+1` of them have broadcast -/
def Relayed (s : State C) : Prop :=
  ∀ r v, LiveIn s r → C.f + 1 ≤ (estSenders s r v).card →
    2 * C.f + 1 ≤ (C.honest.filter fun p => ¬ Owes s r v p).card

/-- nobody waits for a party that has quit: the relays of the rounds still going on are there, and
the undecided are in no later round than a party that has returned -/
structure QuitSafe (s : State C) : Prop where
  relays : Relayed s
  ahead : ∀ p q, C.Honest p → C.Honest q → (s p).st.pc = .returned → (s q).st.decisions = [] →
    (s q).st.r ≤ (s p).st.r

/-! ## relays -/

section
variable {ok : State C → Lbl C → Prop} (h : Reached C ok s) {q : Fin C.N} (hq : C.Honest q) {r : ℤ}
  {v : Bool}
include h hq

/-- a bit of `bin_values` has been broadcast by `f+1` honest parties -/
theorem estSenders_of_bin (hv : v ∈ (s q).st.binValues r) : C.f + 1 ≤ (estSenders s r v).card := by
  have hcard := ((reached_call h q hq).table.bin_iff r v).mp hv
  have hhon : C.f + 1 ≤ (((s q).st.estValues r v).filter fun b => C.Honest b).card :=
    Committee.honest_le_card (by omega)
  refine hhon.trans (Finset.card_le_card fun b hb => ?_)
  obtain ⟨hb, hbh⟩ := Finset.mem_filter.mp hb
  exact Finset.mem_filter.mpr ⟨Committee.mem_honest.mpr hbh, est_sent h hq hbh hb⟩

/-- whoever has the messages of `f+1` honest parties has relayed them -/
theorem relayed_of_senders (hv : C.f + 1 ≤ (estSenders s r v).card)
    (hin : estSenders s r v ⊆ (s q).st.estValues r v) : .EST r v ∈ (s q).st.sent := by
  have htab := (reached_call h q hq).table
  exact mem_sent.mpr (htab.sent r v (htab.relayed r v (hv.trans (Finset.card_le_card hin))))

end

theorem confSenders_card_le {n : ℕ} (p : Party n) (r : ℤ) :
    (p.confSenders r).card ≤ p.confSum r := by
  refine Finset.card_biUnion_le.trans (le_of_eq ?_)
  rw [Finset.sum_filter, confSum_eq]
  simp [confKeys, Nat.add_assoc]

/-! ## the earliest round -/

/-- a quorum of honest parties that have come to the round `m`, with those that relay its bits -/
structure Abreast (s : State C) (m : ℤ) (B : Finset (Fin C.N)) : Prop where
  nonneg : 0 ≤ m
  honest : ∀ p ∈ B, C.Honest p
  quorum : C.N - C.f ≤ B.card
  round : ∀ p ∈ B, m ≤ (s p).st.r
  relays : ∀ v, C.f + 1 ≤ (estSenders s m v).card →
    2 * C.f + 1 ≤ (B.filter fun p => ¬ Owes s m v p).card

section
variable (h : Reached C AtMostOnce s) (hset : Stalled s)
include h hset

theorem entered_of_stalled {p q : Fin C.N} (hp : C.Honest p) (hlive : (s p).st.pc ≠ .returned)
    (hq : C.Honest q) {m : Msg} (hm : m ∈ (s q).st.sent) : (s p).st.Entered q m :=
  (reached_kept h p hp).entered q m (((hset p hp).resolve_left hlive).2.mem hq hm)

theorem waiting_of_stalled {p : Fin C.N} (hp : C.Honest p) (hlive : (s p).st.pc ≠ .returned) :
    (s p).st.Waiting C.f ∨ ∃ V, (s p).st.pc = .coin V :=
  ((hset p hp).resolve_left hlive).1.imp_left fun hb =>
    (reached_call h p hp).current.asleep hb.1 hb.2

variable {m : ℤ} {B : Finset (Fin C.N)} (hB : Abreast s m B)
include hB

/-- a bit that `f+1` honest parties have broadcast is in `bin_values` of every live call -/
theorem mem_bin_of_estSenders {v : Bool} (hv : C.f + 1 ≤ (estSenders s m v).card) {p : Fin C.N}
    (hp : C.Honest p) (hlive : (s p).st.pc ≠ .returned) : v ∈ (s p).st.binValues m := by
  have hin : ∀ q, C.Honest q → (s q).st.pc ≠ .returned →
      estSenders s m v ⊆ (s q).st.estValues m v := by
    intro q hq hl b hb
    obtain ⟨hb, hsent⟩ := Finset.mem_filter.mp hb
    exact entered_of_stalled h hset hq hl (Committee.mem_honest.mp hb) hsent
  -- every live call relays, and few of the others owe it
  have hall : (B.filter fun p => ¬ Owes s m v p) ⊆ estSenders s m v := by
    intro q hq
    obtain ⟨hq, howe⟩ := Finset.mem_filter.mp hq
    have hqh := hB.honest q hq
    refine Finset.mem_filter.mpr ⟨Committee.mem_honest.mpr hqh, ?_⟩
    by_cases hl : (s q).st.pc = .returned
    · by_contra hno
      exact howe ⟨hl, hB.round q hq, hno⟩
    · exact relayed_of_senders h hqh hv (hin q hqh hl)
  refine ((reached_call h p hp).table.bin_iff m v).mpr ?_
  exact ((hB.relays v hv).trans (Finset.card_le_card hall)).trans
    (Finset.card_le_card (hin p hp hlive))

/-- the bits of an honest call's `bin_values` are in those of every live call -/
theorem bin_subset {p q : Fin C.N} (hp : C.Honest p) (hlive : (s p).st.pc ≠ .returned)
    (hq : C.Honest q) : (s q).st.binValues m ⊆ (s p).st.binValues m := by
  intro v hv
  exact mem_bin_of_estSenders h hset hB (estSenders_of_bin h hq hv) hp hlive

omit h hset in
/-- every call is past a point of the round `m` that the live calls of that round are past -/
theorem past_of_live {k : ℕ} (hk : k ≤ 5) {p : Fin C.N} (hp : p ∈ B)
    (hlive : (s p).st.pc ≠ .returned → (s p).st.r = m → k < (s p).st.pc.stage) :
    (s p).st.Past m k := by
  refine ⟨hB.nonneg, ?_⟩
  rcases (hB.round p hp).lt_or_eq with hlt | heq
  · exact .inl hlt
  · refine .inr ⟨heq, ?_⟩
    by_cases hl : (s p).st.pc = .returned
    · rw [hl]
      exact Nat.lt_succ_of_le hk
    · exact hlive hl heq.symm

theorem past_start {p : Fin C.N} (hp : p ∈ B) : (s p).st.Past m 1 := by
  refine past_of_live hB (by decide) hp fun hl _ => ?_
  rcases waiting_of_stalled h hset (hB.honest p hp) hl with hw | ⟨V, hpc⟩
  · rcases hw.cases with ⟨hpc, -⟩ | ⟨hpc, -⟩ | ⟨hpc, -⟩ <;> rw [hpc] <;> decide
  · rw [hpc]
    exact (by decide : 1 < 5)

theorem exists_estSenders : ∃ v, C.f + 1 ≤ (estSenders s m v).card := by
  have hest : ∀ p ∈ B, ∃ v, .EST m v ∈ (s p).st.sent := by
    intro p hp
    have hc := reached_call h p (hB.honest p hp)
    obtain ⟨e, he⟩ := hc.ordered.starting (past_start h hset hB hp)
    exact ⟨e, mem_sent.mpr (hc.table.sent m e (hc.backed _ he).2)⟩
  obtain ⟨v, A, hsub, hA, hAv⟩ :=
    Committee.exists_majority_bit hB.quorum (fun p v => .EST m v ∈ (s p).st.sent) hest
  refine ⟨v, hA.trans (Finset.card_le_card fun p hp => ?_)⟩
  exact Finset.mem_filter.mpr ⟨Committee.mem_honest.mpr (hB.honest p (hsub hp)), hAv p hp⟩

theorem past_aux {p : Fin C.N} (hp : p ∈ B) : (s p).st.Past m 2 := by
  refine past_of_live hB (by decide) hp fun hl hr => ?_
  rcases (waiting_of_stalled h hset (hB.honest p hp) hl).imp_left Waiting.cases with
    (⟨-, hbin⟩ | ⟨hpc, -⟩ | ⟨hpc, -⟩) | ⟨V, hpc⟩
  · obtain ⟨v, hv⟩ := exists_estSenders h hset hB
    have hmem := mem_bin_of_estSenders h hset hB hv (hB.honest p hp) hl
    rw [hr] at hbin
    rw [hbin] at hmem
    exact absurd hmem (Finset.notMem_empty v)
  · rw [hpc]; decide
  · rw [hpc]; decide
  · rw [hpc]
    exact (by decide : 2 < 5)

theorem past_conf {p : Fin C.N} (hp : p ∈ B) : (s p).st.Past m 3 := by
  have hph := hB.honest p hp
  refine past_of_live hB (by decide) hp fun hl hr => ?_
  rcases (waiting_of_stalled h hset hph hl).imp_left Waiting.cases with
    (⟨hpc, hbin⟩ | ⟨-, hx⟩ | ⟨hpc, -⟩) | ⟨V, hpc⟩
  · obtain ⟨-, hpast⟩ := past_aux h hset hB hp
    rw [hpc, hr] at hpast
    exact absurd hpast (by simp [Pc.stage])
  · -- an AUX message of each party of `B`, with a bit of our own `bin_values`
    have hquorum : C.N - C.f ≤
        (((s p).st.binValues m).biUnion ((s p).st.auxValues m)).card := by
      refine hB.quorum.trans (Finset.card_le_card fun q hq => ?_)
      have hqh := hB.honest q hq
      have hc := reached_call h q hqh
      obtain ⟨w, hw⟩ := hc.ordered.aux (past_aux h hset hB hq)
      refine Finset.mem_biUnion.mpr ⟨w, ?_, entered_of_stalled h hset hph hl hqh hw⟩
      exact bin_subset h hset hB hph hl hqh (hc.backed _ (mem_sent.mp hw))
    obtain ⟨-, -, hsum⟩ := auxExit_eq_none.mp hx
    rw [hr] at hsum
    exact absurd (hquorum.trans Finset.card_biUnion_le) hsum
  · rw [hpc]; decide
  · rw [hpc]
    exact (by decide : 3 < 5)

theorem past_return {p : Fin C.N} (hp : p ∈ B) : (s p).st.Past m 4 := by
  have hph := hB.honest p hp
  refine past_of_live hB (by decide) hp fun hl hr => ?_
  obtain ⟨-, hpast⟩ := past_conf h hset hB hp
  rcases (waiting_of_stalled h hset hph hl).imp_left Waiting.cases with
    (⟨hpc, -⟩ | ⟨hpc, -⟩ | ⟨-, hx⟩) | ⟨V, hpc⟩
  · rw [hpc, hr] at hpast
    exact absurd hpast (by simp [Pc.stage])
  · rw [hpc, hr] at hpast
    exact absurd hpast (by simp [Pc.stage])
  · -- a CONF message of each party of `B`, with bits of our own `bin_values`
    have hquorum : C.N - C.f ≤ ((s p).st.confSenders m).card := by
      refine hB.quorum.trans (Finset.card_le_card fun q hq => ?_)
      have hqh := hB.honest q hq
      have hc := reached_call h q hqh
      obtain ⟨c, hsent⟩ := hc.ordered.conf (past_conf h hset hB hq)
      obtain ⟨V, hV, hsub, rfl, -⟩ := hc.backed _ (mem_sent.mp hsent)
      refine Finset.mem_biUnion.mpr ⟨iter V, ?_, entered_of_stalled h hset hph hl hqh hsent⟩
      refine Finset.mem_filter.mpr ⟨List.mem_toFinset.mpr (iter_mem_confKeys hV), fun b hb => ?_⟩
      exact bin_subset h hset hB hph hl hqh (hsub (mem_of_mem_iter hb))
    obtain ⟨-, -, hsum⟩ := confExit_eq_none.mp hx
    rw [hr] at hsum
    exact absurd (hquorum.trans (confSenders_card_le _ m)) hsum
  · rw [hpc]
    exact (by decide : 4 < 5)

/-- whoever of the quorum waits in the round that all of it have come to, waits for the coin -/
theorem Abreast.at_coin {p : Fin C.N} (hp : p ∈ B) (hlive : (s p).st.pc ≠ .returned)
    (hr : (s p).st.r = m) : ∃ V, (s p).st.pc = .coin V := by
  obtain ⟨-, hpast⟩ := past_return h hset hB hp
  rw [hr] at hpast
  refine (waiting_of_stalled h hset (hB.honest p hp) hlive).resolve_left fun hw => ?_
  rcases hw.cases with ⟨hpc, -⟩ | ⟨hpc, -⟩ | ⟨hpc, -⟩ <;>
    rw [hpc] at hpast <;> exact absurd hpast (by simp [Pc.stage])

end

/-- in a settled state nobody of the quorum waits in the round that all of it have come to -/
theorem Abreast.round_ne (h : Reached C AtMostOnce s) (hset : Settled s) {m : ℤ}
    {B : Finset (Fin C.N)} (hB : Abreast s m B) {p : Fin C.N} (hp : p ∈ B)
    (hlive : (s p).st.pc ≠ .returned) : (s p).st.r ≠ m := by
  intro hr
  obtain ⟨V, hpc⟩ := hB.at_coin h hset.stalled hp hlive hr
  have hb := ((hset p (hB.honest p hp)).resolve_left hlive).1
  rcases (reached_call h p (hB.honest p hp)).current.awake hb.1 with he | he | he <;>
    cases hpc.symm.trans he

/-- the live call in the earliest round -/
theorem exists_earliest {q : Fin C.N} (hq : C.Honest q) (hlive : (s q).st.pc ≠ .returned) :
    ∃ a, C.Honest a ∧ (s a).st.pc ≠ .returned ∧
      ∀ p, C.Honest p → (s p).st.pc ≠ .returned → (s a).st.r ≤ (s p).st.r := by
  obtain ⟨a, ha, hmin⟩ := Finset.exists_min_image
    (C.honest.filter fun p => (s p).st.pc ≠ .returned) (fun p => (s p).st.r)
    ⟨q, Finset.mem_filter.mpr ⟨Committee.mem_honest.mpr hq, hlive⟩⟩
  obtain ⟨ha, hal⟩ := Finset.mem_filter.mp ha
  exact ⟨a, Committee.mem_honest.mp ha, hal, fun p hp hl =>
    hmin p (Finset.mem_filter.mpr ⟨Committee.mem_honest.mpr hp, hl⟩)⟩

/-- all honest parties, if none of them is before the round of `a` -/
theorem abreast_honest {ok : State C → Lbl C → Prop} (h : Reached C ok s) (hrel : Relayed s)
    {a : Fin C.N} (ha : C.Honest a) (hal : (s a).st.pc ≠ .returned)
    (hround : ∀ p, C.Honest p → (s a).st.r ≤ (s p).st.r) : Abreast s (s a).st.r C.honest where
  nonneg := (reached_call h a ha).ordered.nonneg
  honest _ hp := Committee.mem_honest.mp hp
  quorum := Committee.card_honest
  round p hp := hround p (Committee.mem_honest.mp hp)
  relays v := hrel (s a).st.r v ⟨a, ha, hal, rfl⟩

/-- if those that have returned were not before the live calls, and owe no relay that is needed, then
there is no live call -/
theorem no_live_of_round_le (h : Reached C AtMostOnce s) (hset : Settled s) (hrel : Relayed s)
    {a : Fin C.N} (ha : C.Honest a) (hround : ∀ p, C.Honest p → (s a).st.r ≤ (s p).st.r) :
    (s a).st.pc = .returned := by
  by_contra hal
  have hB := abreast_honest h hrel ha hal hround
  exact hB.round_ne h hset (Committee.mem_honest.mpr ha) hal rfl

/-- a call that has returned has decided -/
theorem decided_of_returned {f : ℕ} {p : Party C.N} (h : Call f p) (hpc : p.pc = .returned) :
    p.decisions ≠ [] := by
  obtain ⟨v, hv, -⟩ := h.current.returned hpc
  rw [h.current.decisions, hv]
  exact List.cons_ne_nil _ _

/-- **progress**: with at most one copy of each Byzantine message, a settled state in which nobody
needs those who have quit has no undecided honest party -/
theorem progress (C : Committee) (s : State C) (h : Reached C AtMostOnce s) (hset : Settled s)
    (hsafe : QuitSafe s) : ∀ p, C.Honest p → (s p).st.decisions ≠ [] := by
  intro q hq hund
  have hlive : (s q).st.pc ≠ .returned :=
    fun hpc => decided_of_returned (reached_call h q hq) hpc hund
  obtain ⟨a, ha, hal, hmin⟩ := exists_earliest hq hlive
  refine hal (no_live_of_round_le h hset hsafe.relays ha fun p hp => ?_)
  by_cases hpc : (s p).st.pc = .returned
  · exact (hmin q hq hlive).trans (hsafe.ahead p q hp hq hpc hund)
  · exact hmin p hp hpc

/-- parties that have sent the same messages owe each other nothing, and up to `f` more may have sent
others besides -/
theorem relays_of_sent {A : Finset (Fin C.N)} (hA : A.card ≤ C.f)
    (hsame : ∀ p q, C.Honest p → C.Honest q → p ∉ A → (s p).st.sent ⊆ (s q).st.sent) :
    Relayed s := by
  intro r v _ hv
  obtain ⟨p, hp, hpA⟩ := Finset.exists_mem_notMem_of_card_lt_card (hA.trans_lt hv)
  obtain ⟨hp, hsent⟩ := Finset.mem_filter.mp hp
  have hall : C.N - C.f ≤ (C.honest.filter fun p => ¬ Owes s r v p).card := by
    refine Committee.quorum_of_honest fun q hq => ?_
    refine Finset.mem_filter.mpr ⟨Committee.mem_honest.mpr hq, fun howe => howe.2.2 ?_⟩
    exact hsame p q (Committee.mem_honest.mp hp) hq hpA hsent
  have := C.resilient
  omega

/-- a round in which the three honest parties start with 0 and get the coin 0; the Byzantine one is
silent -/
def silentRound (r : ℤ) : List (Lbl four) :=
  let all : List (Fin four.N) := [0, 1, 2]
  all.flatMap (go 2) ++ all.flatMap (arrive all (.EST r false)) ++ all.flatMap (go 2) ++
    all.flatMap (arrive all (.AUX r false)) ++ all.flatMap (go 2) ++
    all.flatMap (arrive all (.CONF r [false])) ++ all.flatMap (go 1) ++
    all.map fun p => .act p (.coin false)

/-- 0 gets the bit 0 alone in the round 0, and decides; 1 and 2 count other CONF messages and get
both bits.  All three go through the round 1, where 0 quits and the others decide, and nobody is left
to help 1 and 2 through the round 2. -/
def splitRun : List (Lbl four) :=
  let all : List (Fin four.N) := [0, 1, 2]
  let fast : List (Fin four.N) := [0, 1]
  let slow : List (Fin four.N) := [1, 2]
  begin false 0 ++ begin false 1 ++ begin true 2 ++
    all.flatMap (arrive [0, 1, 3] (.EST 0 false)) ++ all.flatMap (go 2) ++
    all.flatMap (arrive [2, 3] (.EST 0 true)) ++ arrive [0] (.EST 0 true) 2 ++
    fast.flatMap (arrive [0, 1, 3] (.AUX 0 false)) ++ arrive [0, 2] (.AUX 0 false) 2 ++
    arrive [3] (.AUX 0 true) 2 ++ all.flatMap (go 2) ++ arrive [0] (.EST 0 true) 1 ++
    arrive [0, 1, 3] (.CONF 0 [false]) 0 ++ slow.flatMap (arrive [1] (.CONF 0 [false])) ++
    slow.flatMap (arrive [2, 3] (.CONF 0 [false, true])) ++ all.flatMap (go 1) ++
    (all.map fun p => .act p (.coin false)) ++ silentRound 1 ++ slow.flatMap (go 2) ++
    slow.flatMap (arrive slow (.EST 2 false)) ++ slow.flatMap (arrive [2] (.EST 0 false)) ++
    slow.flatMap (arrive [1] (.EST 0 true)) ++ arrive [2] (.AUX 0 false) 1 ++
    arrive [1] (.AUX 0 false) 2 ++ slow.flatMap (arrive [0] (.CONF 0 [false])) ++
    slow.flatMap (go 1)

/-- 1 and 2 are left in the round 2, where 0 owes them nothing -/
theorem progress_four : ∃ s : State four, Reached four AtMostOnce s ∧ Settled s ∧ QuitSafe s ∧
    LiveIn s 2 ∧ four.f + 1 ≤ (estSenders s 2 false).card ∧
    ∀ p, four.Honest p → (s p).st.decisions ≠ [] := by
  obtain ⟨s, hs, hgood⟩ := exists_exec AtMostOnce (protocol four).start splitRun
    (fun s : State four => decide (Settled s ∧ (s 1).st.pc ≠ .returned ∧
      (∀ p, four.Honest p → (s p).st.pc ≠ .returned → (s p).st.r = 2) ∧
      (∀ v, 2 * four.f + 1 ≤ (four.honest.filter fun p => ¬ Owes s 2 v p).card) ∧
      four.f + 1 ≤ (estSenders s 2 false).card ∧
      ∀ p, four.Honest p → (s p).st.decisions ≠ [])) (by decide +kernel)
  obtain ⟨hset, hlive, hround, howe, hsend, hdec⟩ := of_decide_eq_true hgood
  have hsafe : QuitSafe s := by
    refine ⟨?_, fun p q _ hq _ hund => absurd hund (hdec q hq)⟩
    rintro r v ⟨q, hq, hql, rfl⟩ -
    rw [hround q hq hql]
    exact howe v
  have h1 : four.Honest 1 := by decide
  exact ⟨s, hs, hset, hsafe, ⟨1, h1, hlive, hround 1 h1 hlive⟩, hsend, progress four s hs hset hsafe⟩

/-- seven parties, the last two of them Byzantine -/
def seven : Committee := ⟨7, 2, {5, 6}, by decide, by decide⟩

/-- the parties 0, 1 and 2 go through the phases AUX and CONF of the round `r` with 5 and 6, for
the bit 0 and a coin 0 -/
def fastRound (r : ℤ) : List (Lbl seven) :=
  let fast : List (Fin seven.N) := [0, 1, 2]
  fast.flatMap (go 2) ++
    (fast.flatMap fun p => arrive [0, 1, 2, 5, 6] (.AUX r false) p ++ go 2 p) ++
    fast.flatMap fun p => arrive [0, 1, 2, 5, 6] (.CONF r [false]) p ++ go 1 p ++ [.act p (.coin false)]

/-- 0, 1 and 2 decide 0 in the round 0 and quit in the round 1.  After that 4 gets the bit 1 into
`bin_values`, with the help of 5 and 6, and sends an AUX message for it. -/
def stuckRun : List (Lbl seven) :=
  let fast : List (Fin seven.N) := [0, 1, 2]
  let slow : List (Fin seven.N) := [3, 4]
  begin false 0 ++ begin true 1 ++ begin false 2 ++ begin true 3 ++ begin true 4 ++
    fast.flatMap (arrive [0, 2, 5, 6] (.EST 0 false)) ++ fast.flatMap (arrive [1] (.EST 0 false)) ++
    fastRound 0 ++ fast.flatMap (go 2) ++ fast.flatMap (arrive [0, 1, 2, 5, 6] (.EST 1 false)) ++
    fastRound 1 ++
    arrive [1, 3, 4, 5, 6] (.EST 0 true) 4 ++ go 2 4 ++ arrive [0, 1, 2] (.EST 0 false) 4 ++
    arrive [0, 1, 2, 3, 4] (.EST 0 false) 3 ++ go 2 3 ++ arrive [1, 3, 4] (.EST 0 true) 3 ++
    arrive [3, 4] (.EST 0 false) 4 ++ slow.flatMap (arrive [0, 1, 2, 3] (.AUX 0 false)) ++
    slow.flatMap (arrive [4] (.AUX 0 true)) ++ go 2 4 ++
    slow.flatMap (arrive [0, 1, 2] (.CONF 0 [false])) ++
    slow.flatMap (arrive [4] (.CONF 0 [false, true])) ++
    slow.flatMap (arrive [0, 1, 2] (.EST 1 false)) ++
    slow.flatMap (arrive [3, 4] (.EST 1 false)) ++
    slow.flatMap (arrive [0, 1, 2] (.AUX 1 false)) ++
    slow.flatMap (arrive [0, 1, 2] (.CONF 1 [false])) ++ slow.flatMap (go 1)

/-- also with a common coin, a settled state may have undecided parties -/
theorem stuck : ¬ ∀ s : State seven,
    Reached seven (fun s e => AtMostOnce s e ∧ CommonCoin (fun _ => false) s e) s → Settled s →
      ∀ p, seven.Honest p → (s p).st.decisions ≠ [] := by
  intro hclaim
  obtain ⟨s, hs, hgood⟩ := exists_exec
    (fun s e => AtMostOnce s e ∧ CommonCoin (fun _ => false) s e) (protocol seven).start stuckRun
    (fun s : State seven => decide (Settled s) && decide ((s 3).st.decisions = []))
    (by decide +kernel)
  obtain ⟨hset, hund⟩ := (Bool.and_eq_true ..).mp hgood
  exact hclaim s hs (of_decide_eq_true hset) 3 (by decide) (of_decide_eq_true hund)

end BA
