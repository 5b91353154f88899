import HoneyBadgerBFT.ReliableBroadcast.Invariant

/-!
# Reliable broadcast: one root and one codeword

All READY messages of honest parties name one root (`ready_unique`): a first one has a quorum of
ECHO messages behind it, and an honest party sends ECHO for one root.  The stripes that verify for a
root are those of one codeword, if no two strings hashed in the run have one digest
(`decode_stripes`), and a part of a codeword decodes to the same bytes as any other.
-/

namespace RBC
open Async Trans Party

variable {C : Committee} (S : Setup C)

abbrev State (C : Committee) := Net C.N (Party C.N) Msg

/-- the strings that the honest parties have hashed -/
def hashedIn (s : State C) : Set Bytes := {x | ∃ p, C.Honest p ∧ x ∈ (s p).st.hashed}

section
variable {S} {s t : State C} (h : Reached S s) {p q : Fin C.N} (hp : C.Honest p)
  (hq : C.Honest q)
include h hp hq

theorem echo_of_stripe {r x : Bytes} (hx : (s p).st.stripes r q = some x) :
    ∃ br, .ECHO r br x ∈ (s q).st.sent p := by
  obtain ⟨br, hm, -, -⟩ := (reached_call S h p hp).tables.stripe r q x hx
  have := authentic monotone h p hp q _ hm
  rw [if_pos hq] at this
  exact ⟨br, this⟩

theorem ready_of_ready {r : Bytes} (hr : q ∈ (s p).st.ready r) : .READY r ∈ (s q).st.sent p := by
  have := authentic monotone h p hp q _ ((reached_call S h p hp).tables.ready r q hr)
  rwa [if_pos hq] at this

omit hq in
theorem echo_unique {i j : Fin C.N} {r r' : Bytes} {br br' : List Bytes} {x x' : Bytes}
    (h1 : .ECHO r br x ∈ (s p).st.sent i) (h2 : .ECHO r' br' x' ∈ (s p).st.sent j) : r = r' := by
  have hc := (reached_call S h p hp).sends
  exact Option.some.inj ((hc.echo i r br x h1).1.symm.trans (hc.echo j r' br' x' h2).1)

end

/-! ## one root -/

/-- the honest members of a quorum have sent ECHO for the root `r` -/
def EchoQuorum (s : State C) (r : Bytes) : Prop :=
  ∃ A : Finset (Fin C.N), C.N - C.f ≤ A.card ∧
    ∀ b ∈ A, C.Honest b → ∃ i br x, .ECHO r br x ∈ (s b).st.sent i

/-- a READY message of an honest party has a quorum behind it -/
def Grounded (s : State C) : Prop :=
  ∀ q, C.Honest q → ∀ i r, .READY r ∈ (s q).st.sent i → EchoQuorum s r

variable {S} {s t : State C}

theorem EchoQuorum.mono {e : Label C.N Msg Text}
    (hn : (protocol S).next (fun _ => true) s e = some t) {r : Bytes} (h : EchoQuorum s r) :
    EchoQuorum t r := by
  obtain ⟨A, hA, hsent⟩ := h
  refine ⟨A, hA, fun b hb hbh => ?_⟩
  obtain ⟨i, br, x, hm⟩ := hsent b hb hbh
  exact ⟨i, br, x, sentTo_mono monotone hn b i hm⟩

theorem Grounded.step (h : Reached S s) (hs : Grounded s) {e : Label C.N Msg Text}
    (hn : (protocol S).next (fun _ => true) s e = some t) (ht : Reached S t) : Grounded t := by
  intro q hq i r hm
  have hc := reached_call S ht q hq
  obtain ⟨-, hb, -⟩ := hc.sends.ready i r hm
  rcases hb with hb | hb
  · rw [hc.tables.counter r] at hb
    refine ⟨_, hb, fun b hbm hbh => ?_⟩
    obtain ⟨x, hx⟩ := Option.ne_none_iff_exists'.mp (Finset.mem_filter.mp hbm).2
    obtain ⟨br, hm⟩ := echo_of_stripe ht hq hbh hx
    exact ⟨q, br, x, hm⟩
  · -- amplification: one of the `f+1` senders is honest, and sent the message before this step
    obtain ⟨b, hb, hbh⟩ := Committee.exists_honest hb
    have hold := (authentic monotone h).sent_before hn hq (hc.tables.ready r b hb)
    rw [if_pos hbh] at hold
    exact (hs b hbh q r hold).mono hn

theorem ready_grounded (h : Reached S s) : Grounded s := by
  refine Reach.invariant_of_reach Grounded (fun a e b ha hg he hn => ?_) h ?_
  · exact hg.step ha hn (Reach.tail ha ⟨e, he, hn⟩)
  · intro q _ i r hm
    cases hm

/-- **one root**: the READY messages of honest parties name the same root -/
theorem ready_unique (h : Reached S s) {p q : Fin C.N} (hp : C.Honest p) (hq : C.Honest q)
    {i j : Fin C.N} {r r' : Bytes} (h1 : .READY r ∈ (s p).st.sent i)
    (h2 : .READY r' ∈ (s q).st.sent j) : r = r' := by
  obtain ⟨A, hA, hsA⟩ := ready_grounded h p hp i r h1
  obtain ⟨B, hB, hsB⟩ := ready_grounded h q hq j r' h2
  obtain ⟨b, hbA, hbB, hbh⟩ := Committee.quorum_inter hA hB
  obtain ⟨i', br, x, hm⟩ := hsA b hbA hbh
  obtain ⟨j', br', x', hm'⟩ := hsB b hbB hbh
  exact echo_unique h hbh hm hm'

/-- a root for which a call could return is named by an honest READY message -/
theorem ready_of_complete (h : Reached S s) {p : Fin C.N} (hp : C.Honest p) {r : Bytes}
    (hc : (s p).st.Complete r) : ∃ b, C.Honest b ∧ .READY r ∈ (s b).st.sent p := by
  obtain ⟨b, hb, hbh⟩ := Committee.exists_honest (C := C) (A := (s p).st.ready r)
    (by have := hc.1; omega)
  exact ⟨b, hbh, ready_of_ready h hp hbh hb⟩

theorem complete_unique (h : Reached S s) {p q : Fin C.N} (hp : C.Honest p) (hq : C.Honest q)
    {r r' : Bytes} (h1 : (s p).st.Complete r) (h2 : (s q).st.Complete r') : r = r' := by
  obtain ⟨b, hb, hm⟩ := ready_of_complete h hp h1
  obtain ⟨b', hb', hm'⟩ := ready_of_complete h hq h2
  exact ready_unique h hb hb' hm hm'

/-! ## one codeword -/

theorem K_pos (C : Committee) : 0 < C.N - 2 * C.f := by
  have := C.resilient
  omega

theorem code_length (hN : C.N ≤ 256) {m : Text} {code : List Bytes}
    (henc : encode S.zfec m = some code) : code.length = C.N := by
  obtain ⟨b, w, -, hw, rfl⟩ := encode_eq_some henc
  obtain ⟨w', hw', hle⟩ := padded_of_le (K_pos C) (by omega) b
  obtain rfl := Option.some.inj (hw.symm.trans hw')
  exact encode_split_length S.zfec (K_pos C) hle

section
variable (h : Reached S s) (hinj : Set.InjOn S.H.hash (hashedIn s))
include h hinj

/-- the stripes that an honest party holds for the root of a codeword are those of the codeword -/
theorem partOf_code {code : List Bytes} (hlen : code.length = C.N)
    (hh : ∀ y ∈ treeHashed S.H code, y ∈ hashedIn s) {p : Fin C.N} (hp : C.Honest p) :
    PartOf ((s p).st.stripes (root S code)) code := by
  intro i x hx
  obtain ⟨br, -, hv, hsub⟩ := (reached_call S h p hp).tables.stripe _ i x hx
  exact verify_root S.H hlen i.isLt hinj hv (fun y hy => ⟨p, hp, hsub hy⟩) hh

/-- **every part of a codeword decodes to the same bytes** -/
theorem decode_stripes (hN : C.N ≤ 256) {m : Text} {code : List Bytes}
    (henc : encode S.zfec m = some code) (hh : ∀ y ∈ treeHashed S.H code, y ∈ hashedIn s)
    {b w : Bytes} (hb : m.toBytes = some b) (hw : padded (C.N - 2 * C.f) b = some w)
    {p : Fin C.N} (hp : C.Honest p) :
    decode S.zfec ((s p).st.stripes (root S code)) =
      if C.N - 2 * C.f ≤ (s p).st.echoCounter (root S code) then unsplit (C.N - 2 * C.f) w
      else none := by
  have hpart := partOf_code h hinj (code_length hN henc) hh hp
  obtain ⟨b', w', hb', hw', rfl⟩ := encode_eq_some henc
  obtain rfl := Option.some.inj (hb.symm.trans hb')
  obtain rfl := Option.some.inj (hw.symm.trans hw')
  obtain ⟨w', hw', hle⟩ := padded_of_le (K_pos C) (by omega) b
  obtain rfl := Option.some.inj (hw.symm.trans hw')
  rw [decode_codeword S.zfec (K_pos C) hle hpart, (reached_call S h p hp).tables.counter]

end

end RBC
