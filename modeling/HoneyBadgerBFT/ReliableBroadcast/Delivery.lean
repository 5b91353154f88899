import HoneyBadgerBFT.ReliableBroadcast.Padding
import HoneyBadgerBFT.ReliableBroadcast.Settled

/-!
# Reliable broadcast: what arrives is enough

Where every call that still runs has all messages of the honest parties, the broadcast of an honest
leader has been returned by all of them, if its padding carries the length of the message
(`returned_of_started`), and so has one that some call has returned (`returned_beside`).
-/

namespace RBC
open Async Trans Party

variable {C : Committee} {S : Setup C} {s : State C} (h : Reached S s) (hN : C.N ≤ 256)
  (hinj : Set.InjOn S.H.hash (hashedIn s))
  (hwait : ∀ p, C.Honest p → (s p).st.status = .running → Delivered (protocol S) s p)
  (hin : ∀ p, C.Honest p → (s p).st.status ≠ .input)

include hwait hin in
/-- with no call that has raised, the state is settled -/
theorem settled_of_waiting (hraise : ∀ p, C.Honest p → (s p).st.status ≠ .raised) :
    Settled S s := by
  intro p hp
  cases hst : (s p).st.status with
  | input => exact absurd hst (hin p hp)
  | running => exact .inr (hwait p hp hst)
  | returned m => exact .inl ⟨m, hst⟩
  | raised => exact absurd hst (hraise p hp)

include h hN hinj hwait hin in
/-- **totality**, where everything has arrived -/
theorem returned_beside {p q : Fin C.N} (hp : C.Honest p) (hq : C.Honest q) (hret : Returned s p) :
    Returned s q := by
  obtain ⟨m, hm⟩ := hret
  have hset := settled_of_waiting hwait hin fun a ha => not_raised_of_returned h hN hinj hp ha hm
  exact returned_of_returned h hset hN hinj hp hq ⟨m, hm⟩

section
variable (hl : C.Honest S.leader) {b : Bytes} (hm : (s S.leader).st.m = some (.bytes b))
  (hfit : Restored (C.N - 2 * C.f) (b.length % (C.N - 2 * C.f)))
include h hN hinj hl hm hfit

/-- the honest calls decode the message of an honest leader, whatever stripes they have -/
theorem decodes_leader {q : Fin C.N} (hq : C.Honest q) {r : Bytes} (hc : (s q).st.Complete r) :
    Decodes S r ((s q).st.stripes r) b := by
  have hK := K_pos C
  obtain ⟨w, hw, hlen⟩ := padded_of_le hK (by omega) b
  have hcode : encode S.zfec (.bytes b) = some (S.zfec.encode (split (C.N - 2 * C.f) w)) :=
    encode_bytes S.zfec (by omega) rfl hw
  obtain ⟨rfl, hpart, hcard⟩ := decode_of_leader h hl hm hcode hN hinj hq hc
  refine ⟨?_, _, hcode, rfl⟩
  rw [decode_codeword S.zfec hK hlen hpart, if_pos hcard, unsplit,
    flatten_split_padded hK (by omega) hw]
  exact (unpad_fill_iff (by omega) rfl (Nat.mod_lt _ hK)).mpr hfit

theorem not_raised_of_leader {q : Fin C.N} (hq : C.Honest q) : (s q).st.status ≠ .raised := by
  intro hraised
  rcases (reached_call S h q hq).outcome.raised hraised with ⟨rfl, hnone⟩ | ⟨r, hc, hno⟩
  · cases hm.symm.trans hnone
  · exact hno b (decodes_leader h hN hinj hl hm hfit hq hc)

include hwait hin

/-- **validity**, where everything has arrived -/
theorem returned_of_started {q : Fin C.N} (hq : C.Honest q) : (s q).st.status = .returned b := by
  have hset := settled_of_waiting hwait hin fun a ha =>
    not_raised_of_leader h hN hinj hl hm hfit ha
  obtain ⟨code, hcode, -⟩ := (reached_call S h _ hl).sends.val_sent _ hm
  exact all_returned h hset hN hinj hl hm hcode hcode
    (fun a ha r hc => (decodes_leader h hN hinj hl hm hfit ha hc).1) q hq

end

end RBC
