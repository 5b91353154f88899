import HoneyBadgerBFT.ReliableBroadcast.Codeword

/-!
# Reliable broadcast: settled states

`Settled`: every message between honest parties has arrived, or its recipient has returned.  A call
that has not returned holds all ECHO and READY messages of the honest parties, so once one call has
returned there is enough for all of them (`complete_of_settled`), and `decode_output` does for every
party what it did for the first (`totality`).
-/

namespace RBC
open Async Trans Party

variable {C : Committee} {S : Setup C} {s : State C}

def Returned (s : State C) (p : Fin C.N) : Prop := ∃ m, (s p).st.status = .returned m

/-- every message from an honest party to an honest party has arrived, or its recipient has
returned -/
def Settled (S : Setup C) (s : State C) : Prop :=
  ∀ p, C.Honest p → Returned s p ∨ Delivered (protocol S) s p

/-! ## what a waiting call holds -/

section
variable (h : Reached S s) {p q : Fin C.N} (hp : C.Honest p) (hdel : Delivered (protocol S) s p)
  (hq : C.Honest q)
include h hp hdel hq

theorem echo_arrives {i : Fin C.N} {r : Bytes} {br : List Bytes} {x : Bytes}
    (hm : .ECHO r br x ∈ (s q).st.sent i) : q ∈ present ((s p).st.stripes r) := by
  obtain ⟨-, -, hv, hall⟩ := (reached_call S h q hq).sends.echo i r br x hm
  have htab := (reached_call S h p hp).tables
  have hin := htab.echo_heard q r br x (hdel.mem hq (hall p)) hv
  obtain ⟨r', hr'⟩ := (htab.echoSenders q).mp hin
  obtain ⟨y, hy⟩ := Option.ne_none_iff_exists'.mp hr'
  obtain ⟨br', hm'⟩ := echo_of_stripe h hp hq hy
  obtain rfl := echo_unique h hq hm hm'
  exact Finset.mem_filter.mpr ⟨Finset.mem_univ q, hr'⟩

theorem ready_arrives {i : Fin C.N} {r : Bytes} (hm : .READY r ∈ (s q).st.sent i) :
    q ∈ (s p).st.ready r := by
  obtain ⟨-, -, hall⟩ := (reached_call S h q hq).sends.ready i r hm
  have htab := (reached_call S h p hp).tables
  have hin := htab.ready_heard q r (hdel.mem hq (hall p))
  obtain ⟨r', hr'⟩ := (htab.readySenders q).mp hin
  obtain rfl := ready_unique h hq hq hm (ready_of_ready h hp hq hr')
  exact hr'

end

/-- the honest ECHO messages of a quorum are enough to decode -/
theorem echoes_of_quorum (h : Reached S s) {p : Fin C.N} (hp : C.Honest p)
    (hdel : Delivered (protocol S) s p) {r : Bytes} (hq : EchoQuorum s r) :
    C.N - 2 * C.f ≤ (s p).st.echoCounter r := by
  obtain ⟨A, hA, hsent⟩ := hq
  rw [(reached_call S h p hp).tables.counter]
  have hres := C.resilient
  refine (Committee.honest_le_card (A := A) (by omega)).trans (Finset.card_le_card fun b hb => ?_)
  obtain ⟨hb, hbh⟩ := Finset.mem_filter.mp hb
  obtain ⟨i, br, x, hm⟩ := hsent b hb hbh
  exact echo_arrives h hp hdel hbh hm

/-- the READY message that a call with `f+1` READY messages has sent -/
theorem ready_of_threshold (h : Reached S s) {p : Fin C.N} (hp : C.Honest p) {r : Bytes}
    (hr : (s p).st.readySent = true) {b : Fin C.N} (hb : C.Honest b) {i : Fin C.N}
    (hm : .READY r ∈ (s b).st.sent i) : ∀ q, .READY r ∈ (s p).st.sent q := by
  obtain ⟨r', hr'⟩ := (reached_call S h p hp).sends.ready_sent hr
  obtain rfl := ready_unique h hb hp hm (hr' i)
  exact hr'

section
variable (h : Reached S s) (hset : Settled S s) {p₀ : Fin C.N} (hp₀ : C.Honest p₀) {r : Bytes}
  (hc : (s p₀).st.Complete r)
include h hset hp₀ hc

/-- **amplification**: once one call could return, every honest party has sent READY -/
theorem ready_of_settled {q : Fin C.N} (hq : C.Honest q) : ∀ i, .READY r ∈ (s q).st.sent i := by
  have hcard : C.f + 1 ≤ (((s p₀).st.ready r).filter fun b => C.Honest b).card :=
    Committee.honest_le_card (by have := hc.1; omega)
  obtain ⟨b, hb, hm⟩ := ready_of_complete h hp₀ hc
  refine ready_of_threshold h hq ?_ hb hm
  rcases hset q hq with ⟨m, hm'⟩ | hdel
  · obtain ⟨r', hc', -⟩ := (reached_call S h q hq).outcome.returned m hm'
    exact (reached_call S h q hq).sends.ready_threshold r' (by have := hc'.1; omega)
  · refine (reached_call S h q hq).sends.ready_threshold r (hcard.trans ?_)
    refine Finset.card_le_card fun b hb => ?_
    obtain ⟨hb, hbh⟩ := Finset.mem_filter.mp hb
    exact ready_arrives h hq hdel hbh (ready_of_ready h hp₀ hbh hb)

theorem complete_of_settled {q : Fin C.N} (hq : C.Honest q)
    (hdel : Delivered (protocol S) s q) : (s q).st.Complete r := by
  obtain ⟨b, hb, hm⟩ := ready_of_complete h hp₀ hc
  refine ⟨?_, echoes_of_quorum h hq hdel (ready_grounded h b hb p₀ r hm)⟩
  have hall : C.N - C.f ≤ ((s q).st.ready r).card :=
    Committee.quorum_of_honest fun a ha =>
      ready_arrives h hq hdel ha (ready_of_settled h hset hp₀ hc ha q)
  have := C.resilient
  omega

end

/-! ## an honest leader -/

section
variable (h : Reached S s) (hl : C.Honest S.leader) {b : Fin C.N} (hb : C.Honest b)
include h hl hb

/-- an honest ECHO message is the leader's VAL message to its sender -/
theorem val_of_echo {i : Fin C.N} {r : Bytes} {br : List Bytes} {x : Bytes}
    (hm : .ECHO r br x ∈ (s b).st.sent i) :
    ∃ m code, (s S.leader).st.m = some m ∧ encode S.zfec m = some code ∧ r = root S code ∧
      br = getMerkleBranch b (merkleTree S.H code) ∧ x = code.getD b [] := by
  obtain ⟨-, hval, -⟩ := (reached_call S h b hb).sends.echo i r br x hm
  have hsent := authentic monotone h b hb S.leader _ hval
  rw [if_pos hl] at hsent
  exact ((reached_call S h _ hl).sends.val b r br x hsent).2

theorem root_of_echo {i : Fin C.N} {r : Bytes} {br : List Bytes} {x : Bytes}
    (hm : .ECHO r br x ∈ (s b).st.sent i) :
    ∃ m code, (s S.leader).st.m = some m ∧ encode S.zfec m = some code ∧ r = root S code := by
  obtain ⟨m, code, h1, h2, h3, -⟩ := val_of_echo h hl hb hm
  exact ⟨m, code, h1, h2, h3⟩

theorem root_of_ready {i : Fin C.N} {r : Bytes} (hm : .READY r ∈ (s b).st.sent i) :
    ∃ m code, (s S.leader).st.m = some m ∧ encode S.zfec m = some code ∧ r = root S code := by
  obtain ⟨A, hA, hsent⟩ := ready_grounded h b hb i r hm
  have hres := C.resilient
  obtain ⟨a, ha, hah⟩ := Committee.exists_honest (C := C) (A := A) (by omega)
  obtain ⟨j, br, x, hm'⟩ := hsent a ha hah
  exact root_of_echo h hl hah hm'

theorem root_of_complete {r : Bytes} (hc : (s b).st.Complete r) :
    ∃ m code, (s S.leader).st.m = some m ∧ encode S.zfec m = some code ∧ r = root S code := by
  obtain ⟨a, ha, hm⟩ := ready_of_complete h hb hc
  exact root_of_ready h hl ha hm

end

/-- what a call has returned, every other one decodes that is complete -/
theorem decode_of_returned (h : Reached S s) (hN : C.N ≤ 256)
    (hinj : Set.InjOn S.H.hash (hashedIn s)) {p q : Fin C.N} (hp : C.Honest p) (hq : C.Honest q)
    {m : Bytes} (hm : (s p).st.status = .returned m) {r : Bytes} (hr : (s q).st.Complete r) :
    Decodes S r ((s q).st.stripes r) m := by
  obtain ⟨r', hr', hd, code, henc, rfl, hh⟩ := (reached_call S h p hp).outcome.returned m hm
  obtain rfl := complete_unique h hp hq hr' hr
  obtain ⟨b, w, hb, hw, -⟩ := encode_eq_some henc
  have hall : ∀ y ∈ treeHashed S.H code, y ∈ hashedIn s := fun y hy => ⟨p, hp, hh hy⟩
  have hsame := decode_stripes h hinj hN henc hall hb hw hq
  rw [if_pos hr.2] at hsame
  rw [decode_stripes h hinj hN henc hall hb hw hp, if_pos hr'.2] at hd
  exact ⟨hsame.trans hd, code, henc, rfl⟩

/-- two calls that return, return the same -/
theorem returned_unique (h : Reached S s) (hN : C.N ≤ 256)
    (hinj : Set.InjOn S.H.hash (hashedIn s)) {p q : Fin C.N} (hp : C.Honest p) (hq : C.Honest q)
    {m m' : Bytes} (hm : (s p).st.status = .returned m) (hm' : (s q).st.status = .returned m') :
    m = m' := by
  obtain ⟨r, hr, hd, -⟩ := (reached_call S h q hq).outcome.returned m' hm'
  exact Option.some.inj ((decode_of_returned h hN hinj hp hq hm hr).1.symm.trans hd)

/-- **no call raises beside one that returns** -/
theorem not_raised_of_returned (h : Reached S s) (hN : C.N ≤ 256)
    (hinj : Set.InjOn S.H.hash (hashedIn s)) {p q : Fin C.N} (hp : C.Honest p) (hq : C.Honest q)
    {m : Bytes} (hm : (s p).st.status = .returned m) : (s q).st.status ≠ .raised := by
  intro hraised
  rcases (reached_call S h q hq).outcome.raised hraised with ⟨rfl, hnone⟩ | ⟨r, hr, hno⟩
  · obtain ⟨r, hr, -⟩ := (reached_call S h p hp).outcome.returned m hm
    obtain ⟨m', code', hm', -⟩ := root_of_complete h hq hp hr
    rw [hnone] at hm'
    cases hm'
  · exact hno m (decode_of_returned h hN hinj hp hq hm hr)

section
variable (h : Reached S s) (hl : C.Honest S.leader) {m : Text} {code : List Bytes}
  (hm : (s S.leader).st.m = some m) (hcode : encode S.zfec m = some code)
include hm hcode

/-- the leader has one codeword -/
theorem root_eq {r : Bytes} (hr : ∃ m' code', (s S.leader).st.m = some m' ∧
    encode S.zfec m' = some code' ∧ r = root S code') : r = root S code := by
  obtain ⟨m', code', h1, h2, h3⟩ := hr
  obtain rfl := Option.some.inj (hm.symm.trans h1)
  obtain rfl := Option.some.inj (hcode.symm.trans h2)
  exact h3

include h hl

theorem treeHashed_leader : ∀ y ∈ treeHashed S.H code, y ∈ hashedIn s := by
  obtain ⟨code', h1, h2, -⟩ := (reached_call S h _ hl).sends.val_sent m hm
  obtain rfl := Option.some.inj (hcode.symm.trans h1)
  exact fun y hy => ⟨_, hl, h2 hy⟩

/-- what the calls decode when the leader is honest -/
theorem decode_of_leader (hN : C.N ≤ 256) (hinj : Set.InjOn S.H.hash (hashedIn s)) {q : Fin C.N}
    (hq : C.Honest q) {r : Bytes} (hc : (s q).st.Complete r) :
    r = root S code ∧ PartOf ((s q).st.stripes r) code ∧
      C.N - 2 * C.f ≤ (present ((s q).st.stripes r)).card := by
  obtain rfl := root_eq hm hcode (root_of_complete h hl hq hc)
  refine ⟨rfl, partOf_code h hinj (code_length hN hcode) (treeHashed_leader h hl hm hcode) hq, ?_⟩
  rw [← (reached_call S h q hq).tables.counter]
  exact hc.2

/-- once its VAL has arrived, a call that goes on sends ECHO for the leader's root -/
theorem echo_of_settled (hN : C.N ≤ 256) {q : Fin C.N} (hq : C.Honest q)
    (hdel : Delivered (protocol S) s q) : ∃ i br x, .ECHO (root S code) br x ∈ (s q).st.sent i := by
  obtain ⟨code', h1, -, hval⟩ := (reached_call S h _ hl).sends.val_sent m hm
  obtain rfl := Option.some.inj (hcode.symm.trans h1)
  have hlen := code_length hN hcode
  have hv : Verified S (root S code) (getMerkleBranch q (merkleTree S.H code)) (code.getD q []) q := by
    have := verify_complete S.H (show q.val < code.length by rw [hlen]; exact q.isLt)
    rwa [hlen] at this
  have hc := reached_call S h q hq
  obtain ⟨r, hr⟩ := Option.ne_none_iff_exists'.mp
    (hc.tables.val_heard _ _ _ (hdel.mem hl (hval q)) hv)
  obtain ⟨br, x, hsent⟩ := hc.sends.echo_sent r hr
  obtain rfl := root_eq hm hcode (root_of_echo h hl hq (hsent q))
  exact ⟨q, br, x, hsent q⟩

/-- if no call has returned, every call has enough for the leader's root -/
theorem complete_of_leader (hN : C.N ≤ 256)
    (hdel : ∀ q, C.Honest q → Delivered (protocol S) s q) {q : Fin C.N} (hq : C.Honest q) :
    (s q).st.Complete (root S code) := by
  have hecho : ∀ a, C.Honest a → C.N - C.f ≤ (s a).st.echoCounter (root S code) := by
    intro a ha
    rw [(reached_call S h a ha).tables.counter]
    refine Committee.quorum_of_honest fun b hb => ?_
    obtain ⟨i, br, x, hsent⟩ := echo_of_settled h hl hm hcode hN hb (hdel b hb)
    exact echo_arrives h ha (hdel a ha) hb hsent
  have hready : C.N - C.f ≤ ((s q).st.ready (root S code)).card := by
    refine Committee.quorum_of_honest fun b hb => ?_
    have hc := (reached_call S h b hb).sends
    obtain ⟨r, hr⟩ := hc.ready_sent (hc.echo_threshold _ (hecho b hb))
    obtain rfl := root_eq hm hcode (root_of_ready h hl hb (hr b))
    exact ready_arrives h hq (hdel q hq) hb (hr b)
  have hres := C.resilient
  exact ⟨by omega, le_trans (by omega) (hecho q hq)⟩

end

/-! ## totality -/

/-- a call with enough for a root that `decode_output` accepts has returned -/
theorem returned_of_complete (h : Reached S s) {q : Fin C.N} (hq : C.Honest q) {r : Bytes}
    (hc : (s q).st.Complete r) (hm : q = S.leader → (s q).st.m ≠ none) {m : Bytes}
    (hd : Decodes S r ((s q).st.stripes r) m) : Returned s q := by
  have hout := (reached_call S h q hq).outcome
  cases hst : (s q).st.status with
  | input => exact absurd hc (hout.waiting (.inl hst) r)
  | running => exact absurd hc (hout.waiting (.inr hst) r)
  | returned m' => exact ⟨m', hst⟩
  | raised =>
    rcases hout.raised hst with ⟨h1, h2⟩ | ⟨r', hc', hno⟩
    · exact absurd h2 (hm h1)
    · obtain rfl := complete_unique h hq hq hc hc'
      exact absurd hd (hno m)

theorem returned_of_returned (h : Reached S s) (hset : Settled S s) (hN : C.N ≤ 256)
    (hinj : Set.InjOn S.H.hash (hashedIn s)) {p q : Fin C.N} (hp : C.Honest p) (hq : C.Honest q)
    (hret : Returned s p) : Returned s q := by
  obtain ⟨m, hm⟩ := hret
  obtain ⟨r, hc, hd, code, henc, rfl, hh⟩ := (reached_call S h p hp).outcome.returned m hm
  rcases hset q hq with hret | hdel
  · exact hret
  · have hcq := complete_of_settled h hset hp hc hq hdel
    obtain ⟨b, w, hb, hw, -⟩ := encode_eq_some henc
    have hall : ∀ y ∈ treeHashed S.H code, y ∈ hashedIn s := fun y hy => ⟨p, hp, hh hy⟩
    have hdp := decode_stripes h hinj hN henc hall hb hw hp
    have hdq := decode_stripes h hinj hN henc hall hb hw hq
    rw [if_pos hc.2] at hdp
    rw [if_pos hcq.2, ← hdp, hd] at hdq
    refine returned_of_complete h hq hcq ?_ ⟨hdq, code, henc, rfl⟩
    -- a root that is complete comes from the leader's VAL messages
    rintro rfl
    obtain ⟨m', code', hm', -⟩ := root_of_complete h hq hq hcq
    rw [hm']
    intro h
    cases h

/-- if all that the calls can decode is `v`, they all return `v` -/
theorem all_returned (h : Reached S s) (hset : Settled S s) (hN : C.N ≤ 256)
    (hinj : Set.InjOn S.H.hash (hashedIn s)) (hl : C.Honest S.leader) {m : Text}
    {code : List Bytes} (hm : (s S.leader).st.m = some m) (hcode : encode S.zfec m = some code)
    {v : Bytes} (henc : encode S.zfec (.bytes v) = some code)
    (hdec : ∀ q, C.Honest q → ∀ r, (s q).st.Complete r →
      decode S.zfec ((s q).st.stripes r) = some v) :
    ∀ q, C.Honest q → (s q).st.status = .returned v := by
  have hall : ∀ q, C.Honest q → Returned s q := by
    by_contra hno
    push Not at hno
    obtain ⟨q, hq, hnq⟩ := hno
    have hnone : ∀ a, C.Honest a → ¬ Returned s a :=
      fun a ha hret => hnq (returned_of_returned h hset hN hinj ha hq hret)
    have hc := complete_of_leader h hl hm hcode hN
      (fun a ha => (hset a ha).resolve_left (hnone a ha)) hq
    refine hnq (returned_of_complete h hq hc ?_ ⟨hdec q hq _ hc, code, henc, rfl⟩)
    rintro rfl
    rw [hm]
    intro h
    cases h
  intro q hq
  obtain ⟨m', hm'⟩ := hall q hq
  obtain ⟨r, hc, hd, -⟩ := (reached_call S h q hq).outcome.returned m' hm'
  obtain rfl := Option.some.inj ((hdec q hq r hc).symm.trans hd)
  exact hm'

end RBC
