import HoneyBadgerBFT.ReliableBroadcast.Invariant
import HoneyBadgerBFT.ReliableBroadcast.Parity

/-!
# Reliable broadcast: the output does not depend on the stripes

`decodeOutput` is `decode_output` as a function of the stripes alone, for any `K ≤ N` (for `K = N-2f`
it is the one of a call, `decodeOutput_status`).  A leader may have built his tree over anything: the
stripes need not be a codeword nor have one length.  But where one table with `K` verified stripes
gives `m`, the tree of the root is that of the codeword of `m`, and then every other table is a part
of this codeword.
-/

namespace RBC

section
variable {K N : ℕ} (z : Zfec K N) (H : Digest) (roothash : Bytes)

/-- `decode_output(roothash)`; `none`: an exception -/
def decodeOutput (stripes : Fin N → Option Bytes) : Option Bytes := do
  let m ← decode z stripes
  let _stripes ← encode z (.bytes m)
  if (merkleTree H _stripes).getD 1 [] = roothash then some m else none

/-- the strings that `decode_output` hashes -/
def outputHashed (stripes : Fin N → Option Bytes) : List Bytes :=
  (((decode z stripes).bind fun m => encode z (.bytes m)).map (treeHashed H)).getD []

theorem decodeOutput_iff {stripes : Fin N → Option Bytes} {m : Bytes} :
    decodeOutput z H roothash stripes = some m ↔ decode z stripes = some m ∧
      ∃ code, encode z (.bytes m) = some code ∧ (merkleTree H code).getD 1 [] = roothash := by
  unfold decodeOutput
  constructor
  · intro h
    obtain ⟨m', hm, h⟩ := Option.bind_eq_some_iff.mp h
    obtain ⟨code, hcode, h⟩ := Option.bind_eq_some_iff.mp h
    split at h
    · next hroot =>
      obtain rfl := Option.some.inj h
      exact ⟨hm, code, hcode, hroot⟩
    · cases h
  · rintro ⟨hm, code, hcode, hroot⟩
    simp only [hm, hcode, Option.bind_eq_bind, Option.bind_some, if_pos hroot]

/-- a call returns what `decode_output` returns -/
theorem decodeOutput_status {C : Committee} (S : Setup C) (p : Party C.N) (m : Bytes) :
    (p.decodeOutput S roothash).status = .returned m ↔
      decodeOutput S.zfec S.H roothash (p.stripes roothash) = some m := by
  rw [decodeOutput_iff]
  rcases decodeOutput_cases S roothash p with ⟨m', hs, hm, code, hcode, hroot, -⟩ | ⟨hs, hno⟩ <;>
    rw [hs]
  · rw [hm]
    refine ⟨fun h => ?_, fun h => ?_⟩
    · cases h
      exact ⟨rfl, code, hcode, hroot⟩
    · rw [Option.some.inj h.1]
  · exact ⟨fun h => (by cases h), fun h => absurd h (hno m)⟩

/-- the stripes for a root hash, at least `K` of them, with branches that verify them -/
structure Table (H : Digest) (K N : ℕ) (roothash : Bytes) where
  stripes : Fin N → Option Bytes
  branch : Fin N → List Bytes
  enough : K ≤ (present stripes).card
  verified : ∀ i x, stripes i = some x →
    merkleVerify H N x roothash (branch i) i = some true

/-- the strings that are hashed to verify the table and to decode it -/
def Table.hashed (t : Table H K N roothash) : List Bytes :=
  (List.finRange N).flatMap (fun i =>
    (t.stripes i).elim [] fun x => verifyHashed H N x (t.branch i) i) ++ outputHashed z H t.stripes

section
variable {z H roothash} {t t' : Table H K N roothash}

theorem verifyHashed_subset {i : Fin N} {x : Bytes} (hx : t.stripes i = some x) :
    verifyHashed H N x (t.branch i) i ⊆ t.hashed z H roothash := by
  intro y hy
  refine List.mem_append_left _ (List.mem_flatMap.mpr ⟨i, List.mem_finRange i, ?_⟩)
  rw [hx]
  exact hy

/-- the stripes of a table are those of the codeword under its root -/
theorem partOf_of_root {code : List Bytes} (hlen : code.length = N)
    (hroot : (merkleTree H code).getD 1 [] = roothash) :
    PartOf t.stripes code ∨ Collides H (t.hashed z H roothash) (treeHashed H code) := by
  by_cases hcol : Collides H (t.hashed z H roothash) (treeHashed H code)
  · exact .inr hcol
  · refine .inl fun i x hx => ?_
    subst hlen hroot
    rcases verify_collides H (t.verified i x hx) (verify_complete H i.isLt) with heq | hc
    · exact heq.symm
    · exact absurd (hc.mono (verifyHashed_subset hx) (verifyHashed_complete H i.isLt)) hcol

/-- **one table for all**: what one table gives, the other one gives too -/
theorem output_of_output (hKN : K ≤ N) (hN : N ≤ 256) {m : Bytes}
    (hcol : ¬ Collides H (t.hashed z H roothash ++ t'.hashed z H roothash)
      (t.hashed z H roothash ++ t'.hashed z H roothash))
    (h : decodeOutput z H roothash t.stripes = some m) :
    decodeOutput z H roothash t'.stripes = some m := by
  obtain ⟨hm, code, hcode, hroot⟩ := (decodeOutput_iff z H roothash).mp h
  refine (decodeOutput_iff z H roothash).mpr ⟨?_, code, hcode, hroot⟩
  obtain ⟨b, w, hb, hw, rfl⟩ := encode_eq_some hcode
  have hK : 0 < K := by
    by_contra hzero
    obtain rfl : K = 0 := by omega
    rw [decode, collect_zero] at hm
    cases hm
  obtain ⟨w', hw', hle⟩ := padded_of_le hK (hKN.trans hN) b
  obtain rfl := Option.some.inj (hw.symm.trans hw')
  -- the tree of the codeword was hashed for the first output
  have htree : treeHashed H (z.encode (split K w)) ⊆
      t.hashed z H roothash ++ t'.hashed z H roothash := by
    intro y hy
    refine List.mem_append_left _ (List.mem_append_right _ ?_)
    simpa [outputHashed, hm, hcode] using hy
  have hlen := encode_split_length z hK hle
  have hpart : PartOf t.stripes (z.encode (split K w)) :=
    (partOf_of_root hlen hroot).resolve_right fun hc => hcol
      (hc.mono (List.subset_append_left _ _) htree)
  have hpart' : PartOf t'.stripes (z.encode (split K w)) :=
    (partOf_of_root hlen hroot).resolve_right fun hc => hcol
      (hc.mono (List.subset_append_right _ _) htree)
  rw [decode_codeword z hK hle hpart', if_pos t'.enough, ← hm, decode_codeword z hK hle hpart,
    if_pos t.enough]

end

end

/-- **all or nothing**: of two tables of verified stripes for one root, `decode_output` makes the same
message or none, unless two strings hashed on the way have one digest -/
theorem output_same (K N : ℕ) (hKN : K ≤ N) (hN : N ≤ 256) (z : Zfec K N) (H : Digest)
    (roothash : Bytes) (t t' : Table H K N roothash) (m : Bytes) :
    (decodeOutput z H roothash t.stripes = some m ↔
      decodeOutput z H roothash t'.stripes = some m) ∨
    Collides H (t.hashed z H roothash ++ t'.hashed z H roothash)
      (t.hashed z H roothash ++ t'.hashed z H roothash) := by
  by_cases hcol : Collides H (t.hashed z H roothash ++ t'.hashed z H roothash)
    (t.hashed z H roothash ++ t'.hashed z H roothash)
  · exact .inr hcol
  · refine .inl ⟨output_of_output hKN hN hcol, output_of_output hKN hN fun hc => hcol ?_⟩
    exact hc.mono (List.append_subset.mpr ⟨List.subset_append_right _ _, List.subset_append_left _ _⟩)
      (List.append_subset.mpr ⟨List.subset_append_right _ _, List.subset_append_left _ _⟩)

/-- the stripes of a list that arrive from the parties in `A` -/
def tableOf {K N : ℕ} (H : Digest) {code : List Bytes} (hlen : code.length = N) {A : Finset (Fin N)}
    (hA : K ≤ A.card) : Table H K N ((merkleTree H code).getD 1 []) where
  stripes i := if i ∈ A then some (code.getD i []) else none
  branch i := getMerkleBranch i (merkleTree H code)
  enough := by simpa [present] using hA
  verified i x hx := by
    subst hlen
    split at hx
    · rw [← Option.some.inj hx]
      exact verify_complete H i.isLt
    · cases hx

/-- the stripes of `01 02 03` and one byte of padding, for four parties -/
def fourStripes : List Bytes := [[1, 2], [3, 1], [5, 4], [9, 14]]

def fourRoot : Bytes := (merkleTree sha fourStripes).getD 1 []

/-- the stripes from two of the four -/
def twoStripes (A : Finset (Fin 4)) (hA : 2 ≤ A.card) : Table sha 2 4 fourRoot := tableOf sha rfl hA

theorem output_same_four :
    let t := twoStripes {0, 1} (by decide)
    let t' := twoStripes {2, 3} (by decide)
    let hashed := t.hashed Zfec.twoOfFour sha fourRoot ++ t'.hashed Zfec.twoOfFour sha fourRoot
    decodeOutput Zfec.twoOfFour sha fourRoot t.stripes = some [1, 2, 3] ∧
      (decodeOutput Zfec.twoOfFour sha fourRoot t'.stripes = some [1, 2, 3] ∨
        Collides sha hashed hashed) := by
  intro t t' hashed
  have hout : decodeOutput Zfec.twoOfFour sha fourRoot t.stripes = some [1, 2, 3] :=
    (decodeOutput_iff ..).mpr ⟨by decide +kernel, fourStripes, by decide +kernel, rfl⟩
  exact ⟨hout, (output_same 2 4 (by decide) (by decide) Zfec.twoOfFour sha fourRoot t t'
    [1, 2, 3]).imp_left fun h => h.mp hout⟩

end RBC
