import HoneyBadgerBFT.BinaryAgreement.Progress

/-!
# Binary agreement: the broadcast of bits

The EST messages of a round, with the relay at `f+1` and the output at `2f+1` senders, are a
broadcast of their own, whatever round the parties are in: a bit that comes out goes back to an
honest estimate (`bin_started`), and when everything has arrived all honest parties have the same
bits.
-/

namespace BA
open Async Trans Party

variable {C : Committee} {s : State C}

/-- the EST messages of the round `r` between honest parties have arrived -/
def EstDelivered (s : State C) (r : ℤ) : Prop :=
  ∀ p q, C.Honest p → C.Honest q → ∀ v, .EST r v ∈ (s q).st.sent → (q, .EST r v) ∈ (s p).rcvd

instance (r : ℤ) : Decidable (EstDelivered s r) :=
  inferInstanceAs (Decidable (∀ p q, C.Honest p → C.Honest q → ∀ _ : Bool, _ → _))

section
variable (h : Reached C AtMostOnce s) {r : ℤ} (hdel : EstDelivered s r)
include h hdel

theorem estSenders_subset (v : Bool) {p : Fin C.N} (hp : C.Honest p) :
    estSenders s r v ⊆ (s p).st.estValues r v := by
  intro q hq
  obtain ⟨hq, hsent⟩ := Finset.mem_filter.mp hq
  exact (reached_kept h p hp).entered q _ (hdel p q hp (Committee.mem_honest.mp hq) v hsent)

/-- a bit of one honest party has been relayed by all of them, and has come out everywhere -/
theorem bin_subset_of_delivered {p q : Fin C.N} (hp : C.Honest p) (hq : C.Honest q) :
    (s p).st.binValues r ⊆ (s q).st.binValues r := by
  intro v hv
  have hsenders := estSenders_of_bin h hp hv
  have hall : C.N - C.f ≤ (estSenders s r v).card := Committee.quorum_of_honest fun b hb =>
    Finset.mem_filter.mpr ⟨Committee.mem_honest.mpr hb,
      relayed_of_senders h hb hsenders (estSenders_subset h hdel v hb)⟩
  have hcard := hall.trans (Finset.card_le_card (estSenders_subset h hdel v hq))
  have := C.resilient
  exact ((reached_call h q hq).table.bin_iff r v).mpr (by omega)

end

/-- **binary-value broadcast**: a bit that comes out was the estimate of an honest party, and when the
EST messages of a round have arrived, all honest parties have its bits, also the parties that are
not in the round yet (and those that have returned) -/
theorem bv_broadcast (C : Committee) (s : State C) (h : Reached C AtMostOnce s) (r : ℤ) :
    (∀ q, C.Honest q → ∀ v ∈ (s q).st.binValues r,
      ∃ p, C.Honest p ∧ .starting r v ∈ (s p).st.trace) ∧
    (EstDelivered s r →
      ∀ p q, C.Honest p → C.Honest q → (s p).st.binValues r = (s q).st.binValues r) :=
  ⟨fun _ hq _ hv => bin_started h hq hv, fun hdel _ _ hp hq =>
    (bin_subset_of_delivered h hdel hp hq).antisymm (bin_subset_of_delivered h hdel hq hp)⟩

/-- the parties 0 and 1 start with 1; the party 2 has no input yet and relays their message -/
def relayedRun : List (Lbl four) :=
  begin true 0 ++ begin true 1 ++ [0, 1, 2].flatMap (arrive [0, 1] (.EST 0 true)) ++
    [0, 1, 2].flatMap (arrive [2] (.EST 0 true))

theorem bv_broadcast_four : ∃ s : State four, Reached four AtMostOnce s ∧
    (s 2).st.pc = .input ∧ (s 0).st.binValues 0 = {true} ∧ (s 2).st.binValues 0 = {true} := by
  obtain ⟨s, hs, hgood⟩ := exists_exec AtMostOnce (protocol four).start relayedRun
    (fun s : State four => decide ((s 2).st.pc = .input ∧ (s 0).st.binValues 0 = {true} ∧
      EstDelivered s 0)) (by decide +kernel)
  obtain ⟨hpc, hbin, hdel⟩ := of_decide_eq_true hgood
  have heq := (bv_broadcast four s hs 0).2 hdel 0 2 (by decide) (by decide)
  exact ⟨s, hs, hpc, hbin, heq.symm.trans hbin⟩

end BA
