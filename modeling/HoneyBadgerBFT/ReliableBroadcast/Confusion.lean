import HoneyBadgerBFT.ReliableBroadcast.Broadcast

/-!
# Reliable broadcast: a confused input

196 honest parties, `f = 0`, and an input of 193 bytes `81 C3 81 .. C3 81`.  The padding is three
times `C3 81`, of which the blocks hold `C3 81 C3`, and `decode` takes the last byte for the length
of the rest: 195, so it returns two bytes too many.  They encode to the same blocks
(`confused_returned`).

The blocks alternate, so a row of the Merkle tree has one digest up to some place and another one
from there on (`Row`), and the whole tree hashes 24 strings.
-/

namespace RBC

/-! ## trees of three kinds of nodes -/

section
variable {mt : List Bytes} {H : Bytes → Bytes} {d p : ℕ} {a b e : Bytes}

/-- a row of the tree `mt`: `a` before the place `p`, `b` there, and `e` after it -/
def Row (mt : List Bytes) (d p : ℕ) (a b e : Bytes) : Prop :=
  ∀ i, i < 2 ^ d → mt.getD (2 ^ d + i) [] = if i < p then a else if i = p then b else e

/-- the string that is hashed at the place `p / 2` of the next row -/
def middle (p : ℕ) (a b e : Bytes) : Bytes := if p % 2 = 0 then b ++ e else a ++ b

theorem Row.pair (h : Row mt (d + 1) p a b e) {i : ℕ} (hi : i < 2 ^ d) :
    mt.getD ((2 ^ d + i) * 2) [] ++ mt.getD ((2 ^ d + i) * 2 + 1) [] =
      if i < p / 2 then a ++ a else if i = p / 2 then middle p a b e else e ++ e := by
  have e1 : (2 ^ d + i) * 2 = 2 ^ (d + 1) + 2 * i := by
    rw [Nat.pow_succ]
    omega
  have hpow : 2 ^ (d + 1) = 2 * 2 ^ d := by
    rw [Nat.pow_succ, Nat.mul_comm]
  rw [e1, Nat.add_assoc, h _ (by omega), h _ (by omega)]
  unfold middle
  rcases Nat.lt_trichotomy i (p / 2) with hlt | heq | hgt
  · rw [if_pos (by omega), if_pos (by omega), if_pos hlt]
  · rw [if_neg (show ¬ i < p / 2 by omega), if_pos heq]
    by_cases hp : p % 2 = 0
    · rw [if_neg (by omega), if_pos (by omega), if_neg (by omega), if_neg (by omega), if_pos hp]
    · rw [if_pos (by omega), if_neg (by omega), if_pos (by omega), if_neg hp]
  · rw [if_neg (by omega), if_neg (by omega), if_neg (by omega), if_neg (by omega),
      if_neg (by omega), if_neg (by omega)]

/-- the strings that are hashed above such a row -/
def hashedAbove (H : Bytes → Bytes) : ℕ → ℕ → Bytes → Bytes → Bytes → List Bytes
  | 0, _, _, _, _ => []
  | d + 1, p, a, b, e =>
    (a ++ a) :: middle p a b e :: (e ++ e) ::
      hashedAbove H d (p / 2) (H (a ++ a)) (H (middle p a b e)) (H (e ++ e))

theorem mem_hashedAbove : ∀ {d p : ℕ} {a b e : Bytes}, Row mt d p a b e →
    (∀ t, 1 ≤ t → t < 2 ^ d → mt.getD t [] = H (mt.getD (t * 2) [] ++ mt.getD (t * 2 + 1) [])) →
    ∀ t, 1 ≤ t → t < 2 ^ d →
      mt.getD (t * 2) [] ++ mt.getD (t * 2 + 1) [] ∈ hashedAbove H d p a b e := by
  intro d
  induction d with
  | zero =>
    intro p a b e _ _ t h1 h2
    omega
  | succ d ih =>
    intro p a b e hrow hnode t h1 h2
    have hpow : 2 ^ (d + 1) = 2 * 2 ^ d := by
      rw [Nat.pow_succ, Nat.mul_comm]
    have hpos := Nat.two_pow_pos d
    have hup : Row mt d (p / 2) (H (a ++ a)) (H (middle p a b e)) (H (e ++ e)) := by
      intro i hi
      rw [hnode _ (by omega) (by omega), hrow.pair hi]
      split
      · rfl
      · split <;> rfl
    unfold hashedAbove
    rcases Nat.lt_or_ge t (2 ^ d) with hlt | hge
    · exact List.mem_cons_of_mem _ (List.mem_cons_of_mem _ (List.mem_cons_of_mem _
        (ih hup (fun t' h1' h2' => hnode t' h1' (by omega)) t h1 hlt)))
    · obtain ⟨i, rfl⟩ := Nat.exists_eq_add_of_le hge
      rw [hrow.pair (by omega)]
      split
      · exact List.mem_cons_self
      · split
        · exact List.mem_cons_of_mem _ List.mem_cons_self
        · exact List.mem_cons_of_mem _ (List.mem_cons_of_mem _ List.mem_cons_self)

end

/-! ## the input -/

/-- 196 honest parties -/
def many : Committee := ⟨196, 0, ∅, by decide +kernel, by decide⟩

def manySetup : Setup many := ⟨0, Zfec.whole 196, sha⟩

theorem many_K : many.N - 2 * many.f = 196 := rfl

/-- the input: 96 times `81 C3`, and `81` -/
def confusedInput : Bytes := (List.replicate 96 [(0x81 : UInt8), 0xC3]).flatten ++ [0x81]

/-- the blocks of the input -/
def confusedBlocks : List Bytes := (List.replicate 98 [[(0x81 : UInt8)], [0xC3]]).flatten

/-- the padded input -/
def confusedPadded : Bytes := confusedInput ++ [0xC3, 0x81, 0xC3, 0x81, 0xC3, 0x81]

/-- the input has the blocks of `confusedInput ++ [0xC3, 0x81]`, and this is what `decode` takes them
for -/
theorem confused_codec : padded 196 confusedInput = some confusedPadded ∧
    split 196 confusedPadded = confusedBlocks ∧
    unsplit 196 confusedPadded = some (confusedInput ++ [0xC3, 0x81]) ∧
    padded 196 (confusedInput ++ [0xC3, 0x81]) =
      some (confusedInput ++ [0xC3, 0x81] ++ [0xC3, 0x83]) ∧
    split 196 (confusedInput ++ [0xC3, 0x81] ++ [0xC3, 0x83]) = confusedBlocks := by
  decide +kernel

/-! ## its tree -/

theorem confused_block : ∀ i, i < 196 →
    confusedBlocks.getD i [] = if i % 2 = 0 then [0x81] else [0xC3] := by
  decide +kernel

theorem confused_length : confusedBlocks.length = 196 := by
  rw [confusedBlocks, List.length_flatten, List.map_replicate, List.sum_replicate]
  rfl

theorem eq_of_mem_confusedBlocks {b : Bytes} (h : b ∈ confusedBlocks) : b = [0x81] ∨ b = [0xC3] := by
  obtain ⟨l, hl, hb⟩ := List.mem_flatten.mp h
  rw [List.eq_of_mem_replicate hl] at hb
  exact List.mem_pair.mp hb

theorem clog_196 : Nat.clog 2 196 = 8 := by decide

/-- two leaves side by side -/
def leafPair (H : Digest) : Bytes := H.hash [0x81] ++ H.hash [0xC3]

theorem confused_pair (H : Digest) {i : ℕ} (hi : i < 128) :
    (merkleTree H confusedBlocks).getD ((2 ^ 7 + i) * 2) [] ++
      (merkleTree H confusedBlocks).getD ((2 ^ 7 + i) * 2 + 1) [] =
        if i < 98 then leafPair H else [] := by
  have hlen := confused_length
  have e1 : (2 ^ 7 + i) * 2 = 2 ^ Nat.clog 2 confusedBlocks.length + 2 * i := by
    rw [hlen, clog_196]
    omega
  rw [e1, Nat.add_assoc]
  split
  · rw [merkleTree_leaf H _ (by omega), merkleTree_leaf H _ (by omega), confused_block _ (by omega),
      confused_block _ (by omega), if_pos (by omega), if_neg (by omega)]
    rfl
  · rw [merkleTree_rest H _ (by omega), merkleTree_rest H _ (by omega)]
    rfl

theorem confused_row (H : Digest) : Row (merkleTree H confusedBlocks) 7 98 (H.hash (leafPair H))
    (H.hash []) (H.hash []) := by
  intro i hi
  have hlt : 2 ^ 7 + i < 2 ^ Nat.clog 2 confusedBlocks.length := by
    rw [confused_length, clog_196]
    omega
  rw [merkleTree_node H _ (by omega) hlt, confused_pair H hi]
  split
  · rfl
  · split <;> rfl

/-- the strings of the tree, each of them once -/
def confusedHashed (H : Digest) : List Bytes :=
  let a := H.hash (leafPair H)
  let e := H.hash []
  [0x81] :: [0xC3] :: leafPair H :: [] :: (a ++ a) :: (e ++ e) ::
    hashedAbove H.hash 6 49 (H.hash (a ++ a)) (H.hash (e ++ e)) (H.hash (e ++ e))

theorem treeHashed_confused (H : Digest) :
    ∀ y ∈ treeHashed H confusedBlocks, y ∈ confusedHashed H := by
  intro y hy
  rcases List.mem_append.mp hy with hy | hy
  · rcases eq_of_mem_confusedBlocks hy with rfl | rfl
    · exact List.mem_cons_self
    · exact List.mem_cons_of_mem _ List.mem_cons_self
  · obtain ⟨t, ht, rfl⟩ := List.mem_map.mp hy
    rw [List.mem_range'_1, confused_length, clog_196] at ht
    rcases Nat.lt_or_ge t (2 ^ 7) with hlt | hge
    · -- above the bottom rows
      have habove := mem_hashedAbove (H := H.hash) (confused_row H) (fun t h1 h2 =>
        merkleTree_node H _ h1 (by rw [confused_length, clog_196]; omega)) t ht.1 hlt
      rw [hashedAbove] at habove
      simp only [List.mem_cons] at habove
      unfold confusedHashed
      simp only [List.mem_cons]
      rcases habove with h | h | h | h
      · exact .inr (.inr (.inr (.inr (.inl h))))
      · exact .inr (.inr (.inr (.inr (.inr (.inl h)))))
      · exact .inr (.inr (.inr (.inr (.inr (.inl h)))))
      · exact .inr (.inr (.inr (.inr (.inr (.inr h)))))
    · obtain ⟨i, rfl⟩ := Nat.exists_eq_add_of_le hge
      rw [confused_pair H (by omega)]
      split
      · exact List.mem_cons_of_mem _ (List.mem_cons_of_mem _ List.mem_cons_self)
      · exact List.mem_cons_of_mem _ (List.mem_cons_of_mem _ (List.mem_cons_of_mem _
          List.mem_cons_self))

set_option maxRecDepth 1000000 in
/-- SHA-256 on the strings of the tree -/
theorem sha_confused : ((confusedHashed sha).map sha.hash).Nodup := by decide +kernel

/-- **a wrong output**: 196 honest parties, no collision, the input of the leader is
`confusedInput`, and every call returns two bytes more -/
theorem confused_returned : ∃ s : State many, Reached manySetup s ∧
    (s 0).st.m = some (.bytes confusedInput) ∧ Set.InjOn sha.hash (hashedIn s) ∧
    (∀ q, many.Honest q) ∧ (∀ q, (s q).st.status = .returned (confusedInput ++ [0xC3, 0x81])) ∧
    confusedInput ++ [0xC3, 0x81] ≠ confusedInput := by
  obtain ⟨hw, hsplit, hv, hw', hsplit'⟩ := confused_codec
  have hinj : Set.InjOn sha.hash {y | y ∈ treeHashed sha (split 196 confusedPadded)} := by
    intro x hx y hy
    rw [hsplit] at hx hy
    exact List.inj_on_of_nodup_map sha_confused (treeHashed_confused sha x hx)
      (treeHashed_confused sha y hy)
  have hhon : ∀ q, many.Honest q := fun q => Finset.notMem_empty q
  have hsame := hsplit'.trans hsplit.symm
  rw [← many_K] at hw hv hw' hsame hinj
  obtain ⟨s, hs, hm, hcol, hret⟩ :=
    exists_returned (S := manySetup) (m := .bytes confusedInput) (by decide) (hhon _) rfl hw hv hw'
      hsame hinj
  exact ⟨s, hs, hm, hcol, hhon, fun q => hret q (hhon q), by simp⟩

end RBC
