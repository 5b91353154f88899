import HoneyBadgerBFT.Library.Bytes

/-!
# Reliable broadcast: erasure coding

`encode` and `decode` of the broadcast, over the package `zfec`, which is a parameter (`Zfec`): what
is assumed of it is that any `K` stripes of a codeword decode to its data blocks.

* `collect_codeword`    the stripes that `decode` picks from a codeword;
* `decode_codeword`     `decode` of a part of the codeword of `m`: the same for every part.
-/

namespace RBC

/-- `zfec.Encoder(K, N).encode` and `zfec.Decoder(K, N).decode`; `none`: an exception -/
structure Zfec (K N : ℕ) where
  encode : List Bytes → List Bytes
  decode : List Bytes → List ℕ → Option (List Bytes)
  encode_length : ∀ (blocks : List Bytes) (step : ℕ), blocks.length = K → 0 < step →
    (∀ b ∈ blocks, b.length = step) → (encode blocks).length = N
  decode_encode : ∀ (blocks : List Bytes) (step : ℕ), blocks.length = K → 0 < step →
    (∀ b ∈ blocks, b.length = step) → ∀ nums : List ℕ, nums.length = K → nums.Pairwise (· < ·) →
      (∀ i ∈ nums, i < N) → decode (nums.map fun i => (encode blocks).getD i []) nums = some blocks

section
variable {K N : ℕ}

/-- the message with `padlen` copies of `chr(K-padlen).encode()` -/
def padded (K : ℕ) (m : Bytes) : Option Bytes := do
  let padlen := K - m.length % K
  let pad ← utf8 (K - padlen)
  pure (m ++ (List.replicate padlen pad).flatten)

/-- `blocks`: the padded message in `K` pieces of `step` bytes, without the rest -/
def split (K : ℕ) (m : Bytes) : List Bytes :=
  let step := m.length / K
  (List.range K).map fun i => (m.take ((i + 1) * step)).drop (i * step)

/-- `encode(K, N, m)`; `none`: an exception -/
def encode (z : Zfec K N) (m : Text) : Option (List Bytes) := do
  let m ← m.toBytes
  if K ≤ 256 then
    let m ← padded K m
    pure (z.encode (split K m))
  else none

/-- the loop of `decode`; `none`: too few to recover -/
def collect (K : ℕ) : List (Option Bytes) → ℕ → List Bytes → List ℕ → Option (List Bytes × List ℕ)
  | [], _, _, _ => none
  | none :: rest, i, blocks, blocknums => collect K rest (i + 1) blocks blocknums
  | some block :: rest, i, blocks, blocknums =>
    if (blocks ++ [block]).length = K then some (blocks ++ [block], blocknums ++ [i])
    else collect K rest (i + 1) (blocks ++ [block]) (blocknums ++ [i])

/-- `padlen = K - m[-1]`, `m[:-padlen]`; `none`: there is no last byte -/
def unpad (K : ℕ) (m : Bytes) : Option Bytes :=
  m.getLast?.map fun last => sliceTo m (-((K : ℤ) - last.toNat))

/-- `decode(K, N, stripes)`; `none`: an exception -/
def decode (z : Zfec K N) (stripes : Fin N → Option Bytes) : Option Bytes := do
  let (blocks, blocknums) ← collect K (List.ofFn stripes) 0 [] []
  let m ← z.decode blocks blocknums
  unpad K m.flatten

/-! ## the blocks of a message -/

theorem utf8_of_lt {c : ℕ} (h : c < 256) : ∃ b, utf8 c = some b ∧ 1 ≤ b.length := by
  unfold utf8
  split
  · exact ⟨_, rfl, le_refl 1⟩
  · rw [if_pos (by omega)]
    exact ⟨_, rfl, Nat.le_succ 1⟩

/-- the padded message has a byte for every block -/
theorem padded_of_le (hK : 0 < K) (h256 : K ≤ 256) (m : Bytes) :
    ∃ p, padded K m = some p ∧ K ≤ p.length := by
  have hmod := Nat.mod_lt m.length hK
  obtain ⟨b, hb, hlen⟩ := utf8_of_lt (c := K - (K - m.length % K)) (by omega)
  refine ⟨_, by rw [padded]; simp only [hb]; rfl, ?_⟩
  rw [List.length_append, List.length_flatten, List.map_replicate, List.sum_replicate, smul_eq_mul]
  have h1 : K - m.length % K ≤ (K - m.length % K) * b.length := Nat.le_mul_of_pos_right _ hlen
  have h2 := Nat.mod_le m.length K
  omega

theorem split_length (K : ℕ) (m : Bytes) : (split K m).length = K := by
  simp [split]

theorem length_of_mem_split {m b : Bytes} (h : b ∈ split K m) : b.length = m.length / K := by
  obtain ⟨i, hi, rfl⟩ := List.mem_map.mp h
  have hi := List.mem_range.mp hi
  have hle : (i + 1) * (m.length / K) ≤ m.length :=
    (Nat.mul_le_mul_right _ hi).trans (Nat.mul_div_le m.length K)
  rw [List.length_drop, List.length_take, min_eq_left hle, Nat.add_mul, Nat.one_mul]
  exact Nat.add_sub_cancel_left ..

theorem split_step (hK : 0 < K) {m : Bytes} (h : K ≤ m.length) : 0 < m.length / K :=
  Nat.div_pos h hK

/-- the blocks side by side are the front of the padded message -/
theorem flatten_split (m : Bytes) : (split K m).flatten = m.take (K * (m.length / K)) := by
  have key : ∀ k, ((List.range k).map fun i =>
      (m.take ((i + 1) * (m.length / K))).drop (i * (m.length / K))).flatten =
        m.take (k * (m.length / K)) := by
    intro k
    induction k with
    | zero => simp
    | succ k ih =>
      rw [List.range_succ, List.map_append, List.flatten_append, ih]
      simp only [List.map_cons, List.map_nil, List.flatten_cons, List.flatten_nil, List.append_nil]
      have hle : k * (m.length / K) ≤ (k + 1) * (m.length / K) :=
        Nat.mul_le_mul_right _ (Nat.le_succ k)
      have hsplit := List.take_append_drop (k * (m.length / K)) (m.take ((k + 1) * (m.length / K)))
      rwa [List.take_take, min_eq_left hle] at hsplit
  exact key K

theorem encode_eq_some {z : Zfec K N} {m : Text} {code : List Bytes}
    (h : encode z m = some code) :
    ∃ b p, m.toBytes = some b ∧ padded K b = some p ∧ code = z.encode (split K p) := by
  unfold encode at h
  obtain ⟨b, hb, h⟩ := Option.bind_eq_some_iff.mp h
  split at h
  · obtain ⟨p, hp, h⟩ := Option.bind_eq_some_iff.mp h
    exact ⟨b, p, hb, hp, (Option.some.inj h).symm⟩
  · cases h

theorem encode_bytes (z : Zfec K N) (h256 : K ≤ 256) {m : Text} {b p : Bytes}
    (hb : m.toBytes = some b) (hp : padded K b = some p) :
    encode z m = some (z.encode (split K p)) := by
  unfold encode
  simp only [hb, Option.bind_eq_bind, Option.bind_some, if_pos h256, hp]
  rfl

/-! ## decoding a codeword -/

/-- what `collect` takes from a list whose entries agree with `c` -/
theorem collect_codeword {c : ℕ → Bytes} (l : List (Option Bytes)) :
    ∀ (i : ℕ) (blocknums : List ℕ), (∀ k b, l[k]? = some (some b) → b = c (i + k)) →
      blocknums.Pairwise (· < ·) → (∀ j ∈ blocknums, j < i) → blocknums.length < K →
      if K ≤ blocknums.length + l.countP Option.isSome then
        ∃ nums, collect K l i (blocknums.map c) blocknums = some (nums.map c, nums) ∧
          nums.length = K ∧ nums.Pairwise (· < ·) ∧ ∀ j ∈ nums, j < i + l.length
      else collect K l i (blocknums.map c) blocknums = none := by
  induction l with
  | nil =>
    intro i nums _ _ _ hlen
    rw [List.countP_nil, if_neg (by omega)]
    rfl
  | cons a l ih =>
    intro i nums hl hsort hlt hlen
    have hl' : ∀ k b, l[k]? = some (some b) → b = c (i + 1 + k) := by
      intro k b hb
      rw [Nat.add_assoc, Nat.add_comm 1 k]
      exact hl (k + 1) b hb
    cases a with
    | none =>
      have := ih (i + 1) nums hl' hsort (fun j hj => (hlt j hj).trans (Nat.lt_succ_self i)) hlen
      rw [List.countP_cons_of_neg (by simp), collect, List.length_cons, ← Nat.add_assoc,
        Nat.add_right_comm]
      exact this
    | some b =>
      have hb : b = c i := hl 0 b rfl
      have hmap : nums.map c ++ [b] = (nums ++ [i]).map c := by simp [hb]
      have hsort' : (nums ++ [i]).Pairwise (· < ·) := by
        rw [List.pairwise_append]
        exact ⟨hsort, List.pairwise_singleton _ _, fun j hj k hk => by
          rw [List.mem_singleton.mp hk]; exact hlt j hj⟩
      have hlt' : ∀ j ∈ nums ++ [i], j < i + 1 := by
        intro j hj
        rcases List.mem_append.mp hj with hj | hj
        · exact (hlt j hj).trans (Nat.lt_succ_self i)
        · rw [List.mem_singleton.mp hj]; exact Nat.lt_succ_self i
      have hlen' : (nums ++ [i]).length = nums.length + 1 := by simp
      rw [List.countP_cons_of_pos (by rfl), collect, hmap, List.length_map, hlen', List.length_cons]
      by_cases hK : nums.length + 1 = K
      · rw [if_pos (by omega), if_pos hK]
        exact ⟨_, rfl, hlen'.trans hK, hsort', fun j hj => (hlt' j hj).trans_le (by omega)⟩
      · have := ih (i + 1) (nums ++ [i]) hl' hsort' hlt' (by omega)
        rw [if_neg hK]
        rw [hlen'] at this
        have e1 : nums.length + 1 + l.countP Option.isSome =
            nums.length + (l.countP Option.isSome + 1) := by omega
        have e2 : i + 1 + l.length = i + (l.length + 1) := by omega
        rw [e1, e2] at this
        exact this

/-- no number of stripes is enough for `K = 0` -/
theorem collect_zero (l : List (Option Bytes)) : ∀ (i : ℕ) (blocks : List Bytes) (nums : List ℕ),
    collect 0 l i blocks nums = none := by
  induction l with
  | nil => intro i blocks nums; rfl
  | cons a l ih =>
    intro i blocks nums
    cases a with
    | none => exact ih _ _ _
    | some b =>
      rw [collect, if_neg (by simp)]
      exact ih _ _ _

/-- the entries of a table that are there -/
def present (stripes : Fin N → Option Bytes) : Finset (Fin N) :=
  Finset.univ.filter fun i => stripes i ≠ none

/-- every entry of the table that is there is the one of the list -/
def PartOf (stripes : Fin N → Option Bytes) (code : List Bytes) : Prop :=
  ∀ i b, stripes i = some b → code.getD i [] = b

theorem countP_ofFn (stripes : Fin N → Option Bytes) :
    (List.ofFn stripes).countP Option.isSome = (present stripes).card := by
  rw [List.ofFn_eq_map, List.countP_map, List.countP_eq_length_filter]
  show _ = ((List.finRange N).filter fun i => decide (stripes i ≠ none)).length
  congr 2
  funext i
  cases h : stripes i <;> simp [h]

/-- what `decode` makes of the codeword of the padded message `p` -/
def unsplit (K : ℕ) (p : Bytes) : Option Bytes := unpad K (split K p).flatten

section
variable (z : Zfec K N) (hK : 0 < K) {p : Bytes} (hp : K ≤ p.length)
include hK hp

theorem encode_split_length : (z.encode (split K p)).length = N :=
  z.encode_length _ _ (split_length K p) (split_step hK hp) fun _ => length_of_mem_split

/-- **any `K` stripes give the same bytes**, and fewer are too few -/
theorem decode_codeword {stripes : Fin N → Option Bytes}
    (hpart : PartOf stripes (z.encode (split K p))) :
    decode z stripes = if K ≤ (present stripes).card then unsplit K p else none := by
  have hcol := collect_codeword (K := K) (c := fun i => (z.encode (split K p)).getD i [])
    (List.ofFn stripes) 0 [] (fun k b hb => ?_) List.Pairwise.nil (by simp) hK
  · rw [List.length_nil, Nat.zero_add, countP_ofFn, List.map_nil] at hcol
    unfold decode
    split at hcol
    · next hc =>
      obtain ⟨nums, hnums, hlen, hsort, hlt⟩ := hcol
      rw [List.length_ofFn, Nat.zero_add] at hlt
      have hdec := z.decode_encode _ _ (split_length K p) (split_step hK hp)
        (fun _ => length_of_mem_split) nums hlen hsort hlt
      rw [hnums, if_pos hc]
      simp only [Option.bind_eq_bind, Option.bind_some, hdec]
      rfl
    · next hc =>
      rw [hcol, if_neg hc]
      rfl
  · rw [Nat.zero_add]
    obtain ⟨hk, hget⟩ := List.getElem?_eq_some_iff.mp hb
    rw [List.getElem_ofFn] at hget
    exact (hpart _ b hget).symm

end

end

/-- `zfec` with `K = N`: the stripes are the blocks -/
def Zfec.whole (N : ℕ) : Zfec N N where
  encode blocks := blocks
  decode blocks nums := if blocks.length = N ∧ nums = List.range N then some blocks else none
  encode_length _ _ h _ _ := h
  decode_encode := by
    intro blocks step hlen _ _ nums hnums hsort hlt
    have hrange : nums = List.range N := by
      refine List.Perm.eq_of_pairwise' hsort List.pairwise_lt_range ?_
      have hsub : List.Subperm nums (List.range N) :=
        List.subperm_of_subset hsort.nodup fun i hi => List.mem_range.mpr (hlt i hi)
      exact hsub.perm_of_length_le (by rw [hnums, List.length_range])
    subst hrange
    have hmap : ((List.range N).map fun i => blocks.getD i []) = blocks := by
      refine List.ext_getElem (by simp [hlen]) fun i h1 h2 => ?_
      simp [List.getElem?_eq_getElem h2]
    rw [hmap, if_pos ⟨hlen, rfl⟩]

end RBC
