import HoneyBadgerBFT.Library.Sha256
import HoneyBadgerBFT.ReliableBroadcast.Padding
import HoneyBadgerBFT.ReliableBroadcast.Parity
import HoneyBadgerBFT.ReliableBroadcast.Silent

/-!
# Reliable broadcast: agreement, totality and validity

* `broadcast_agreement`   two honest calls that return, return the same;
* `totality`   in a settled state all honest calls have returned, if one has or the leader is honest;
* `validity`   what they return is the input of an honest leader, unless it is `Confused`.

With an honest leader every call that returns has decoded a part of the leader's codeword, and has
checked that the bytes it got encode to the same root.  The same root is the same codeword and so
the same blocks, but not always the same message.
-/

namespace RBC
open Async Trans Party

/-! ## a committee of four -/

namespace four

/-- the party 0 leads -/
def setup : Setup Committee.four := ⟨0, Zfec.twoOfFour, sha⟩

/-- the honest parties -/
def parties : List (Fin Committee.four.N) := [0, 1, 2]

theorem mem_parties : ∀ p, Committee.four.Honest p → p ∈ parties := by decide

/-- the stripes of the byte 5 -/
def code : List Bytes := [[5], [1], [13], [21]]

def tree : List Bytes := merkleTree sha code

/-- the ECHO message of the party `i` -/
def echo (i : Fin Committee.four.N) : Msg :=
  .ECHO (tree.getD 1 []) (getMerkleBranch i tree) (code.getD i [])

/-- the Byzantine party sends READY for another root, its ECHO message, and one with another stripe -/
def begin : List (Label Committee.four.N Msg Text) :=
  [.act 0 (.bytes [5]), .deliver 0 3 (.READY []), .deliver 1 3 (echo 3),
    .deliver 2 3 (.ECHO (tree.getD 1 []) (getMerkleBranch 3 tree) [22])]

/-- everything that has been sent arrives -/
def turn (s : State Committee.four) : List (Label Committee.four.N Msg Text) :=
  parties.flatMap fun p => parties.flatMap fun q => ((s q).st.sent p).map (.deliver p q)

def last : State Committee.four :=
  let next := (protocol setup).next fun _ => true
  sweep next turn 3 (sweep next (fun _ => begin) 1 (protocol setup).start)

theorem reached : Reached setup last := (reach_sweep _ _ _ _).trans (reach_sweep _ _ _ _)

def hashed (s : State Committee.four) : List Bytes := parties.flatMap fun p => (s p).st.hashed

set_option maxRecDepth 100000 in
theorem evaluated : (last setup.leader).st.m = some (.bytes [5]) ∧
    (∀ p ∈ parties, (last p).st.status = .returned [5]) ∧
    ((hashed last).dedup.map sha.hash).Nodup := by
  decide +kernel

theorem returned {p : Fin Committee.four.N} (hp : Committee.four.Honest p) :
    (last p).st.status = .returned [5] :=
  evaluated.2.1 p (mem_parties p hp)

theorem injOn : Set.InjOn sha.hash (hashedIn last) := by
  rintro x ⟨p, hp, hx⟩ y ⟨q, hq, hy⟩
  have hmem : ∀ p, Committee.four.Honest p → ∀ x ∈ (last p).st.hashed, x ∈ (hashed last).dedup :=
    fun p hp x hx => List.mem_dedup.mpr (List.mem_flatMap.mpr ⟨p, mem_parties p hp, hx⟩)
  exact List.inj_on_of_nodup_map evaluated.2.2 (hmem p hp x hx) (hmem q hq y hy)

end four

/-! ## agreement -/

variable {C : Committee} {S : Setup C} {s : State C}

/-- **agreement**: two honest calls that return, return the same byte string, unless two of the
strings hashed in the run have the same digest -/
theorem broadcast_agreement (C : Committee) (hN : C.N ≤ 256) (S : Setup C) (s : State C) (h : Reached S s)
    (p q : Fin C.N) (hp : C.Honest p) (hq : C.Honest q) (m m' : Bytes)
    (hm : (s p).st.status = .returned m) (hm' : (s q).st.status = .returned m') :
    m = m' ∨ ∃ x ∈ hashedIn s, ∃ y ∈ hashedIn s, x ≠ y ∧ S.H.hash x = S.H.hash y := by
  by_cases hinj : Set.InjOn S.H.hash (hashedIn s)
  · left
    obtain ⟨r, hr, hd, code, henc, rfl, hh⟩ := (reached_call S h p hp).outcome.returned m hm
    obtain ⟨r', hr', hd', -⟩ := (reached_call S h q hq).outcome.returned m' hm'
    obtain rfl := complete_unique h hp hq hr hr'
    obtain ⟨b, w, hb, hw, -⟩ := encode_eq_some henc
    have hall : ∀ y ∈ treeHashed S.H code, y ∈ hashedIn s := fun y hy => ⟨p, hp, hh hy⟩
    rw [decode_stripes h hinj hN henc hall hb hw hp, if_pos hr.2] at hd
    rw [decode_stripes h hinj hN henc hall hb hw hq, if_pos hr'.2] at hd'
    exact Option.some.inj (hd.symm.trans hd')
  · right
    unfold Set.InjOn at hinj
    push Not at hinj
    obtain ⟨x, hx, y, hy, he, hne⟩ := hinj
    exact ⟨x, hx, y, hy, hne, he⟩

theorem broadcast_agreement_four : (four.last 1).st.status = .returned [5] ∧
    (four.last 2).st.status = .returned [5] ∧ ([5] = ([5] : Bytes) ∨
      ∃ x ∈ hashedIn four.last, ∃ y ∈ hashedIn four.last, x ≠ y ∧ sha256 x = sha256 y) := by
  have h1 := four.returned (p := 1) (by decide)
  have h2 := four.returned (p := 2) (by decide)
  exact ⟨h1, h2, broadcast_agreement Committee.four (by decide) four.setup four.last four.reached 1 2
    (by decide) (by decide) [5] [5] h1 h2⟩

/-! ## totality -/

/-- `decode` of any `K` stripes of `encode(K, N, m)` is `m` -/
def Recovers {K N : ℕ} (z : Zfec K N) (m : Text) : Prop :=
  ∀ code stripes, encode z m = some code → PartOf stripes code → K ≤ (present stripes).card →
    decode z stripes = m.toBytes

/-- **totality**: in a settled state of a run without a hash collision, all honest calls have
returned if one has, and if the leader is honest and has sent its VAL messages for `m`, all honest
calls have returned `m` -/
theorem totality (C : Committee) (hN : C.N ≤ 256) (S : Setup C) (s : State C) (h : Reached S s)
    (hset : Settled S s) (hinj : Set.InjOn S.H.hash (hashedIn s)) :
    ((∃ p, C.Honest p ∧ Returned s p) → ∀ q, C.Honest q → Returned s q) ∧
    (C.Honest S.leader → ∀ m, (s S.leader).st.m = some m → Recovers S.zfec m →
      ∃ b, m.toBytes = some b ∧ ∀ q, C.Honest q → (s q).st.status = .returned b) := by
  refine ⟨?_, fun hl m hm hrec => ?_⟩
  · rintro ⟨p, hp, hret⟩ q hq
    exact returned_of_returned h hset hN hinj hp hq hret
  obtain ⟨code, hcode, -⟩ := (reached_call S h _ hl).sends.val_sent m hm
  obtain ⟨b, w, hb, hw, hcw⟩ := encode_eq_some hcode
  have henc : encode S.zfec (.bytes b) = some code := by
    rw [encode_bytes S.zfec (by omega) (m := .bytes b) rfl hw, hcw]
  refine ⟨b, hb, all_returned h hset hN hinj hl hm hcode henc fun q hq r hc => ?_⟩
  obtain ⟨-, hpart, hcard⟩ := decode_of_leader h hl hm hcode hN hinj hq hc
  exact (hrec code _ hcode hpart hcard).trans hb

/-- the byte is recovered from any two stripes -/
theorem four.recovers : Recovers four.setup.zfec (.bytes [5]) := by
  intro code stripes hcode hpart hcard
  have hblocks : encode four.setup.zfec (.bytes [5]) =
      some (four.setup.zfec.encode (split 2 [5, 1])) := by
    decide
  obtain rfl := Option.some.inj (hcode.symm.trans hblocks)
  have hdec := decode_codeword (K := 2) (p := [5, 1]) four.setup.zfec (by decide) (by decide) hpart
  exact hdec.trans ((if_pos hcard).trans (by decide))

theorem totality_four : Settled four.setup four.last ∧
    ((∃ p, Committee.four.Honest p ∧ Returned four.last p) →
      ∀ q, Committee.four.Honest q → Returned four.last q) ∧
    ∃ b, Text.toBytes (.bytes [5]) = some b ∧
      ∀ q, Committee.four.Honest q → (four.last q).st.status = .returned b := by
  have hset : Settled four.setup four.last := fun q hq => .inl ⟨[5], four.returned hq⟩
  obtain ⟨h1, h2⟩ :=
    totality Committee.four (by decide) four.setup four.last four.reached hset four.injOn
  exact ⟨hset, h1, h2 (by decide) _ four.evaluated.1 four.recovers⟩

/-! ## validity -/

/-- a codeword gives its blocks -/
theorem encode_inj {K N : ℕ} (z : Zfec K N) (hK : 0 < K) (hKN : K ≤ N) {w w' : Bytes}
    (hw : K ≤ w.length) (hw' : K ≤ w'.length)
    (h : z.encode (split K w) = z.encode (split K w')) : split K w = split K w' := by
  have hdec : ∀ v : Bytes, K ≤ v.length →
      z.decode ((List.range K).map fun i => (z.encode (split K v)).getD i []) (List.range K) =
        some (split K v) := fun v hv =>
    z.decode_encode _ _ (split_length K v) (split_step hK hv) (fun _ => length_of_mem_split) _
      List.length_range List.pairwise_lt_range fun i hi => (List.mem_range.mp hi).trans_le hKN
  have h1 := hdec w hw
  rw [h, hdec w' hw'] at h1
  exact (Option.some.inj h1).symm

/-- a root without a collision is the root of one codeword -/
theorem code_unique {A : Set Bytes} (hinj : Set.InjOn S.H.hash A) {code code' : List Bytes}
    (hlen : code.length = C.N) (hlen' : code'.length = C.N) (hh : ∀ y ∈ treeHashed S.H code, y ∈ A)
    (hh' : ∀ y ∈ treeHashed S.H code', y ∈ A) (hroot : root S code = root S code') :
    code = code' := by
  refine List.ext_getElem (hlen.trans hlen'.symm) fun i h1 h2 => ?_
  have hv := verify_complete S.H h2
  rw [hlen', show (merkleTree S.H code').getD 1 [] = root S code from hroot.symm] at hv
  have hsub := verifyHashed_complete S.H h2
  rw [hlen'] at hsub
  have heq := verify_root S.H hlen (hlen ▸ h1) hinj hv (fun y hy => hh' y (hsub hy)) hh
  rwa [List.getD_eq_getElem _ _ h1, List.getD_eq_getElem _ _ h2] at heq

section
variable (h : Reached S s) (hN : C.N ≤ 256) (hinj : Set.InjOn S.H.hash (hashedIn s))
  (hl : C.Honest S.leader)
include h hN hinj hl

/-- **what the calls return when the leader is honest**: bytes that are decoded from the blocks of
the leader's input, and have the same blocks -/
theorem returned_of_leader {p : Fin C.N} (hp : C.Honest p) {v : Bytes}
    (hv : (s p).st.status = .returned v) : ∃ m b w w', (s S.leader).st.m = some m ∧
      m.toBytes = some b ∧ padded (C.N - 2 * C.f) b = some w ∧
      unsplit (C.N - 2 * C.f) w = some v ∧ padded (C.N - 2 * C.f) v = some w' ∧
      split (C.N - 2 * C.f) w' = split (C.N - 2 * C.f) w := by
  obtain ⟨r, hc, hd, code', henc', hroot, hh'⟩ := (reached_call S h p hp).outcome.returned v hv
  obtain ⟨m, code, hm, henc, rfl⟩ := root_of_complete h hl hp hc
  obtain ⟨b, w, hb, hw, hcode⟩ := encode_eq_some henc
  obtain ⟨_, w', hb', hw', hcode'⟩ := encode_eq_some henc'
  obtain rfl := Option.some.inj hb'
  have hall := treeHashed_leader h hl hm henc
  rw [decode_stripes h hinj hN henc hall hb hw hp, if_pos hc.2] at hd
  have hsame := code_unique hinj (code_length hN henc') (code_length hN henc)
    (fun y hy => ⟨p, hp, hh' hy⟩) hall hroot
  rw [hcode, hcode'] at hsame
  refine ⟨m, b, w, w', hm, hb, hw, hd, hw', ?_⟩
  obtain ⟨_, hw2, hle⟩ := padded_of_le (K_pos C) (by omega) b
  obtain rfl := Option.some.inj (hw.symm.trans hw2)
  obtain ⟨_, hw2, hle'⟩ := padded_of_le (K_pos C) (by omega) v
  obtain rfl := Option.some.inj (hw'.symm.trans hw2)
  exact encode_inj S.zfec (K_pos C) (by omega) hle' hle hsame

end

/-- **validity**: if the leader is honest and its input is not confused with another message, an
honest call that returns, returns the input -/
theorem validity (C : Committee) (hN : C.N ≤ 256) (S : Setup C) (s : State C) (h : Reached S s)
    (hinj : Set.InjOn S.H.hash (hashedIn s)) (hl : C.Honest S.leader)
    (hconf : ∀ m b, (s S.leader).st.m = some m → m.toBytes = some b →
      ¬ Confused (C.N - 2 * C.f) b)
    (p : Fin C.N) (hp : C.Honest p) (v : Bytes) (hv : (s p).st.status = .returned v) :
    ∃ m, (s S.leader).st.m = some m ∧ m.toBytes = some v := by
  obtain ⟨m, b, w, w', hm, hb, hw, hd, hw', hsplit⟩ := returned_of_leader h hN hinj hl hp hv
  refine ⟨m, hm, ?_⟩
  have hcases := confused_iff (K_pos C) (by omega) hw
  by_cases heq : v = b
  · rw [hb, heq]
  · exact absurd (hcases.mp ⟨v, w', hd, hw', hsplit, heq⟩) (hconf m b hm hb)

theorem validity_four : (four.last 1).st.status = .returned [5] ∧
    ∃ m, (four.last four.setup.leader).st.m = some m ∧ m.toBytes = some [5] := by
  have hret := four.returned (p := 1) (by decide)
  refine ⟨hret, validity Committee.four (by decide) four.setup four.last four.reached four.injOn
    (by decide) ?_ 1 (by decide) [5] hret⟩
  rintro m b - - (⟨h, -⟩ | ⟨-, h, -⟩)
  · exact absurd h (by decide)
  · exact absurd h (by decide)

end RBC
