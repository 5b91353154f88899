import HoneyBadgerBFT.ReliableBroadcast.Parity

/-!
# Reliable broadcast: the padding of `encode`

`encode` pads with `padlen` copies of `chr(K-padlen).encode()`.  From `chr(128)` on that is two
bytes, the padded message has more than a multiple of `K` bytes, and the blocks leave out its end:
the blocks of `m` are `m ++ fill K (len(m) % K)`, whose last byte is `len(m) % K` only some of the
time.

* `flatten_split_padded`    the blocks side by side;
* `confused_iff`            the messages that `decode` gives back as another one with the same
                            blocks;
* `decode_encode_iff`       the messages that `decode` gives back as they were.
-/

namespace RBC
variable {K : ℕ}

/-- the byte `i` of the padding, for a message with `c` bytes more than a multiple of `K` -/
def fillByte (c i : ℕ) : ℕ :=
  if c < 128 then c else if i % 2 = 0 then 192 + c / 64 else 128 + c % 64

/-- the padding that the blocks hold -/
def fill (K c : ℕ) : Bytes := (List.range (K - c)).map fun i => (fillByte c i).toUInt8

theorem fillByte_lt {c : ℕ} (hc : c < 256) (i : ℕ) : fillByte c i < 256 := by
  unfold fillByte
  split
  · omega
  · split <;> omega

theorem toUInt8_inj {a b : ℕ} (ha : a < 256) (hb : b < 256) (h : a.toUInt8 = b.toUInt8) :
    a = b := by
  have := congrArg UInt8.toNat h
  simpa [Nat.mod_eq_of_lt ha, Nat.mod_eq_of_lt hb] using this

theorem fill_length (K c : ℕ) : (fill K c).length = K - c := by simp [fill]

/-- the first `p` bytes of `u v u v ..` -/
theorem take_pairs (u v : UInt8) (n : ℕ) : ∀ p, p ≤ 2 * n →
    ((List.replicate n [u, v]).flatten).take p =
      (List.range p).map fun i => if i % 2 = 0 then u else v := by
  induction n with
  | zero =>
    intro p hp
    obtain rfl : p = 0 := by omega
    rfl
  | succ n ih =>
    intro p hp
    rcases p with - | - | p
    · rfl
    · rfl
    · rw [List.replicate_succ, List.flatten_cons, List.range_succ_eq_map, List.range_succ_eq_map]
      simp only [List.cons_append, List.nil_append, List.take_succ_cons, List.map_cons, List.map_map]
      rw [ih p (by omega)]
      refine congrArg (u :: v :: ·) (List.map_congr_left fun i _ => ?_)
      simp only [Function.comp, Nat.succ_eq_add_one, Nat.add_assoc, Nat.reduceAdd, Nat.add_mod_right]

theorem utf8_length {c : ℕ} (hc : c < 256) {pad : Bytes} (hpad : utf8 c = some pad) :
    pad.length = 1 ∨ pad.length = 2 ∧ 0 < c := by
  have hlen := utf8_length_eq hpad
  unfold extraBytes at hlen
  split at hlen
  · exact .inl hlen
  · rw [if_pos (by omega)] at hlen
    exact .inr ⟨hlen, by omega⟩

/-- the blocks end after `padlen` bytes of padding, also when its characters are two bytes long -/
theorem blocks_length (hK : 0 < K) (l : ℕ) {k : ℕ} (hk : k = 1 ∨ k = 2 ∧ 0 < l % K) :
    K * ((l + (K - l % K) * k) / K) = l + (K - l % K) := by
  have hc := Nat.mod_lt l hK
  have hdiv := Nat.div_add_mod l K
  have hmul : K * (l / K + 1) = l + (K - l % K) := by
    rw [Nat.mul_add]
    omega
  rcases hk with rfl | ⟨rfl, h0⟩
  · rw [Nat.mul_one, ← hmul, Nat.mul_div_cancel_left _ hK]
  · have e : l + (K - l % K) * 2 = (K - l % K) + K * (l / K + 1) := by omega
    rw [e, Nat.add_mul_div_left _ _ hK, Nat.div_eq_of_lt (by omega), Nat.zero_add, hmul]

/-- the first `padlen` bytes of the padding -/
theorem take_padding {c : ℕ} (hc : c < 256) {pad : Bytes} (hpad : utf8 c = some pad) :
    ((List.replicate (K - c) pad).flatten).take (K - c) = fill K c := by
  unfold utf8 at hpad
  by_cases h128 : c < 128
  · rw [if_pos h128] at hpad
    obtain rfl := Option.some.inj hpad
    have hrep : (List.replicate (K - c) [c.toUInt8]).flatten = List.replicate (K - c) c.toUInt8 := by
      simp
    rw [hrep, List.take_replicate, min_self, fill]
    refine List.ext_getElem (by simp) fun i h1 h2 => ?_
    simp [fillByte, h128]
  · rw [if_neg h128, if_pos (by omega)] at hpad
    obtain rfl := Option.some.inj hpad
    rw [take_pairs _ _ _ _ (by omega), fill]
    refine List.map_congr_left fun i _ => ?_
    unfold fillByte
    rw [if_neg h128]
    split <;> rfl

theorem flatten_split_padded (hK : 0 < K) (h256 : K ≤ 256) {m w : Bytes}
    (hw : padded K m = some w) : (split K w).flatten = m ++ fill K (m.length % K) := by
  have hc := Nat.mod_lt m.length hK
  have hchr : K - (K - m.length % K) = m.length % K := by omega
  unfold padded at hw
  dsimp only at hw
  rw [hchr] at hw
  obtain ⟨pad, hpad, hw⟩ := Option.bind_eq_some_iff.mp hw
  obtain rfl := Option.some.inj hw
  have hlen : (m ++ (List.replicate (K - m.length % K) pad).flatten).length =
      m.length + (K - m.length % K) * pad.length := by
    rw [List.length_append, List.length_flatten, List.map_replicate, List.sum_replicate,
      smul_eq_mul]
  rw [flatten_split, hlen, blocks_length hK m.length (utf8_length (by omega) hpad),
    List.take_append, List.take_of_length_le (by omega), ← take_padding (by omega) hpad]
  congr 2
  omega

/-- the blocks are given by their bytes side by side -/
theorem split_flatten (hK : 0 < K) (w : Bytes) : split K (split K w).flatten = split K w := by
  have hle : K * (w.length / K) ≤ w.length := Nat.mul_div_le _ _
  have hlen : ((split K w).flatten).length / K = w.length / K := by
    rw [flatten_split, List.length_take, min_eq_left hle, Nat.mul_div_cancel_left _ hK]
  have hunfold : ∀ x : Bytes, split K x =
      (List.range K).map fun i => (x.take ((i + 1) * (x.length / K))).drop (i * (x.length / K)) :=
    fun _ => rfl
  rw [hunfold (split K w).flatten, hlen, hunfold w]
  refine List.map_congr_left fun i hi => ?_
  have hi' : (i + 1) * (w.length / K) ≤ K * (w.length / K) :=
    Nat.mul_le_mul_right _ (List.mem_range.mp hi)
  rw [← hunfold w, flatten_split, List.take_take, min_eq_left hi']

/-! ## the end of the padding -/

/-- the bytes of the blocks, counted from the end -/
theorem getElem?_fill {m : Bytes} {c k : ℕ} (hk : k < K - c) :
    (m ++ fill K c)[m.length + (K - c) - 1 - k]? = some (fillByte c (K - c - 1 - k)).toUInt8 := by
  have hi : m.length + (K - c) - 1 - k = m.length + (K - c - 1 - k) := by omega
  rw [hi, List.getElem?_append_right (Nat.le_add_right _ _), Nat.add_sub_cancel_left, fill,
    List.getElem?_map, List.getElem?_range (by omega)]
  rfl

theorem unpad_fill {m : Bytes} {c : ℕ} (hc : c < K) (h256 : c < 256) :
    unpad K (m ++ fill K c) =
      some (sliceTo (m ++ fill K c) (-((K : ℤ) - fillByte c (K - c - 1)))) := by
  have hlast : (m ++ fill K c).getLast? = some (fillByte c (K - c - 1)).toUInt8 := by
    rw [List.getLast?_eq_getElem?, List.length_append, fill_length]
    exact getElem?_fill (k := 0) (by omega)
  have hlt := fillByte_lt h256 (K - c - 1)
  rw [unpad, hlast, Option.map_some]
  simp [Nat.mod_eq_of_lt hlt]

/-- two paddings of one end -/
theorem fillByte_eq {b v : Bytes} {c c' k : ℕ} (h256 : c < 256) (h256' : c' < 256)
    (h : b ++ fill K c = v ++ fill K c') (hk : k < K - c) (hk' : k < K - c') :
    fillByte c (K - c - 1 - k) = fillByte c' (K - c' - 1 - k) := by
  have hlen : b.length + (K - c) = v.length + (K - c') := by
    simpa [fill_length] using congrArg List.length h
  have h1 := getElem?_fill (m := b) hk
  rw [h, hlen, getElem?_fill hk'] at h1
  exact (toUInt8_inj (fillByte_lt h256' _) (fillByte_lt h256 _) (Option.some.inj h1)).symm

/-! ## confused messages -/

/-- the messages that `decode` confuses with another one of the same blocks -/
def Confused (K : ℕ) (m : Bytes) : Prop :=
  (K = 196 ∧ m.length % K = 193) ∨
  (K % 2 = 0 ∧ 198 ≤ K ∧ m.length % K = K - 1 ∧
    (List.replicate ((K - 196) / 2) [(0xC3 : UInt8), 0x83]).flatten <:+ m)

/-- the ends that two different residues can share -/
theorem fillByte_cases {c e : ℕ} (h256 : K ≤ 256) (hc : c < K) (he : e < K) (hne : c ≠ e)
    (h1 : fillByte c (K - c - 1) = e) (h2 : fillByte e (K - e - 1) = e) :
    (192 ≤ c ∧ (K - c) % 2 = 0 ∧ e = c - 64) ∨
      (192 ≤ c ∧ (K - c) % 2 = 1 ∧ e = 195 ∧ K % 2 = 0) := by
  unfold fillByte at h1 h2
  split at h1
  · omega
  · split at h1 <;> split at h2
    · omega
    · split at h2 <;> omega
    · omega
    · split at h2 <;> omega

theorem length_pairs (u v : UInt8) (n : ℕ) : (List.replicate n [u, v]).flatten.length = 2 * n := by
  rw [List.length_flatten, List.map_replicate, List.sum_replicate, smul_eq_mul, Nat.mul_comm]
  rfl

theorem fill_195 (hK : K % 2 = 0) (h196 : 196 ≤ K) :
    fill K 195 = (List.replicate ((K - 196) / 2) [(0xC3 : UInt8), 0x83]).flatten ++ [0xC3] := by
  have hpairs := take_pairs 0xC3 0x83 ((K - 196) / 2 + 1) (K - 195) (by omega)
  have hfill : fill K 195 = (List.range (K - 195)).map fun i => if i % 2 = 0 then 0xC3 else 0x83 := by
    refine List.map_congr_left fun i _ => ?_
    unfold fillByte
    rw [if_neg (by decide)]
    split <;> rfl
  have hlen : (List.replicate ((K - 196) / 2) [(0xC3 : UInt8), 0x83]).flatten.length = K - 196 := by
    rw [length_pairs]
    omega
  rw [hfill, ← hpairs, List.replicate_succ', List.flatten_append, List.take_append,
    List.take_of_length_le (by omega), hlen]
  have e : K - 195 - (K - 196) = 1 := by omega
  rw [e]
  rfl

theorem fill_pred (h193 : 193 ≤ K) (h256 : K ≤ 256) : fill K (K - 1) = [0xC3] := by
  have hone : K - (K - 1) = 1 := by omega
  have h3 : (K - 1) / 64 = 3 := by omega
  have h128 : ¬ K - 1 < 128 := by omega
  rw [fill, hone]
  simp [fillByte, h3, h128]

/-- the padding fixes the message, unless it is one of a few sizes -/
theorem confused_of_fill {b v : Bytes} {c : ℕ} (h256 : K ≤ 256) (hc : c < K) (he : 195 < K)
    (h192 : 192 ≤ c) (hodd : (K - c) % 2 = 1) (hK : K % 2 = 0) (hne : c ≠ 195)
    (hb : b.length % K = c) (heq : v ++ fill K 195 = b ++ fill K c) : Confused K b := by
  rcases Nat.lt_or_ge 196 K with h196 | h196
  · rcases Nat.lt_or_ge (c + 1) K with h1 | h1
    · -- two bytes of padding on both sides
      have hbyte := fillByte_eq (k := 1) (by omega) (by omega) heq (by omega) (by omega)
      unfold fillByte at hbyte
      rw [if_neg (by omega), if_neg (by omega), if_neg (by omega), if_neg (by omega)] at hbyte
      omega
    · obtain rfl : c = K - 1 := by omega
      refine Or.inr ⟨hK, by omega, hb, v, ?_⟩
      rw [fill_195 hK (by omega), fill_pred (by omega) h256, ← List.append_assoc] at heq
      exact List.append_inj_left' heq rfl
  · obtain rfl : K = 196 := by omega
    exact Or.inl ⟨rfl, by omega⟩

theorem confused_of_unpad (hK : 0 < K) (h256 : K ≤ 256) {b v : Bytes}
    (heq : v ++ fill K (v.length % K) = b ++ fill K (b.length % K))
    (hv : unpad K (b ++ fill K (b.length % K)) = some v) (hne : v ≠ b) : Confused K b := by
  have hc := Nat.mod_lt b.length hK
  have hc' := Nat.mod_lt v.length hK
  have hlen : v.length + (K - v.length % K) = b.length + (K - b.length % K) := by
    simpa [fill_length] using congrArg List.length heq
  have hlast := fillByte_eq (k := 0) (by omega) (by omega) heq (by omega) (by omega)
  have hdiv := Nat.div_add_mod b.length K
  rw [unpad_fill hc (by omega)] at hv
  obtain hv := (Option.some.inj hv).symm
  generalize hcdef : b.length % K = c at *
  have he256 := fillByte_lt (c := c) (by omega) (K - c - 1)
  generalize hedef : fillByte c (K - c - 1) = e at *
  have hPlen : (b ++ fill K c).length = b.length + (K - c) := by
    rw [List.length_append, fill_length]
  rcases Nat.lt_or_ge e K with he | he
  · -- `decode` cuts inside the padded message
    have hcut : v = (b ++ fill K c).take (b.length + (K - c) - (K - e)) := by
      have hneg : -((K : ℤ) - e) = -((K - e : ℕ) : ℤ) := by omega
      rw [hv, hneg, sliceTo_neg _ (by omega), hPlen]
    have hvlen : v.length = K * (b.length / K) + e := by
      rw [hcut, List.length_take, hPlen]
      omega
    have hve : v.length % K = e := by
      rw [hvlen, Nat.mul_add_mod, Nat.mod_eq_of_lt he]
    rw [hve] at heq hlast hlen
    rcases eq_or_ne c e with rfl | hce
    · exact absurd (List.append_inj_left' heq rfl) hne
    · rcases fillByte_cases h256 hc he hce hedef hlast with ⟨h192, heven, rfl⟩ | ⟨h192, hodd, rfl, hK2⟩
      · -- the bytes before the last one differ
        have hbyte := fillByte_eq (k := 1) (by omega) (by omega) heq (by omega) (by omega)
        unfold fillByte at hbyte
        rw [if_neg (by omega), if_pos (by omega), if_neg (by omega), if_pos (by omega)] at hbyte
        omega
      · exact confused_of_fill h256 hc he h192 hodd hK2 hce hcdef heq
  · -- `decode` counts from the front
    have h128 : 128 ≤ c := by
      by_contra hlt
      rw [fillByte, if_pos (by omega)] at hedef
      omega
    have hvlen : v.length = e - K := by
      have hneg : -((K : ℤ) - e) = ((e - K : ℕ) : ℤ) := by omega
      rw [hv, hneg, sliceTo, if_pos (Int.natCast_nonneg _), Int.toNat_natCast, List.length_take, hPlen]
      omega
    rw [hvlen, Nat.mod_eq_of_lt (by omega), fillByte, if_pos (by omega)] at hlast
    omega

/-- a confused message has another one with the same blocks, and `decode` gives that -/
theorem exists_of_confused (h256 : K ≤ 256) {b : Bytes} (h : Confused K b) : ∃ v,
    v ++ fill K (v.length % K) = b ++ fill K (b.length % K) ∧
      unpad K (b ++ fill K (b.length % K)) = some v ∧ v ≠ b := by
  have hdiv := Nat.div_add_mod b.length K
  rcases h with ⟨rfl, hb⟩ | ⟨hK2, h198, hb, v, hv⟩
  · rw [hb] at hdiv ⊢
    have hv : (b ++ [(0xC3 : UInt8), 0x81]).length % 196 = 195 := by
      rw [List.length_append, List.length_cons, List.length_singleton]
      omega
    refine ⟨b ++ [0xC3, 0x81], ?_, ?_, by simp⟩
    · rw [hv, List.append_assoc]
      rfl
    · have hcut : -((196 : ℕ) : ℤ) + (195 : ℕ) = -((1 : ℕ) : ℤ) := by norm_num
      have hbytes : b ++ fill 196 193 = (b ++ [0xC3, 0x81]) ++ [0xC3] := by
        rw [List.append_assoc]
        rfl
      rw [unpad_fill (by omega) (by omega), neg_sub, sub_eq_neg_add]
      rw [show fillByte 193 (196 - 193 - 1) = 195 from rfl, hcut, sliceTo_neg _ one_pos, hbytes,
        List.length_append, List.length_singleton, Nat.add_sub_cancel, List.take_left]
  · have hlen : b.length = v.length + (K - 196) := by
      rw [← hv, List.length_append, length_pairs]
      omega
    have hvK : v.length % K = 195 := by
      have hvlen : v.length = K * (b.length / K) + 195 := by
        rw [hb] at hdiv
        omega
      rw [hvlen, Nat.mul_add_mod, Nat.mod_eq_of_lt (by omega)]
    have heq : v ++ fill K 195 = b ++ fill K (K - 1) := by
      rw [fill_pred (by omega) h256, ← hv, fill_195 hK2 (by omega), List.append_assoc]
    have hlast : fillByte (K - 1) (K - (K - 1) - 1) = 195 := by
      have h3 : (K - 1) / 64 = 3 := by omega
      have h0 : (K - (K - 1) - 1) % 2 = 0 := by omega
      rw [fillByte, if_neg (by omega), if_pos h0, h3]
    have hcut : -((K : ℤ) - (195 : ℕ)) = -((K - 195 : ℕ) : ℤ) := by omega
    have hend : v.length + (K - 195) - (K - 195) = v.length := Nat.add_sub_cancel ..
    refine ⟨v, by rw [hvK, hb]; exact heq, ?_, fun h => ?_⟩
    · rw [hb, unpad_fill (by omega) (by omega), hlast, hcut, sliceTo_neg _ (by omega), ← heq,
        List.length_append, fill_length, hend, List.take_left]
    · rw [h] at hlen
      omega

/-- **the messages that `decode` gets wrong**: some other message has the same blocks and comes out
of them -/
theorem confused_iff (hK : 0 < K) (h256 : K ≤ 256) {b w : Bytes} (hw : padded K b = some w) :
    (∃ v w', unsplit K w = some v ∧ padded K v = some w' ∧ split K w' = split K w ∧ v ≠ b) ↔
      Confused K b := by
  have hflat := flatten_split_padded hK h256 hw
  constructor
  · rintro ⟨v, w', hv, hw', heq, hne⟩
    have hflat' := flatten_split_padded hK h256 hw'
    rw [unsplit, hflat] at hv
    rw [heq, hflat] at hflat'
    exact confused_of_unpad hK h256 hflat'.symm hv hne
  · intro h
    obtain ⟨v, heq, hv, hne⟩ := exists_of_confused h256 h
    obtain ⟨w', hw', -⟩ := padded_of_le hK h256 v
    refine ⟨v, w', by rw [unsplit, hflat, hv], hw', ?_, hne⟩
    rw [← split_flatten hK w', ← split_flatten hK w, hflat, flatten_split_padded hK h256 hw', heq]

/-! ## the round trip -/

/-- the residues modulo `K` of the lengths that the padding carries -/
def Restored (K c : ℕ) : Prop :=
  c < 128 ∨ (c < 192 ∧ (K - c) % 2 = 0) ∨ (c = 195 ∧ K % 2 = 0)

/-- the last byte of the blocks is the residue for these lengths, and for no other -/
theorem fillByte_last_iff {c : ℕ} (h256 : K ≤ 256) (hc : c < K) :
    fillByte c (K - c - 1) = c ↔ Restored K c := by
  unfold fillByte Restored
  split
  · omega
  · split <;> omega

theorem unpad_fill_iff {b : Bytes} {c : ℕ} (h256 : K ≤ 256) (hb : b.length % K = c) (hc : c < K) :
    unpad K (b ++ fill K c) = some b ↔ Restored K c := by
  have hdiv := Nat.div_add_mod b.length K
  have hPlen : (b ++ fill K c).length = b.length + (K - c) := by
    rw [List.length_append, fill_length]
  rw [unpad_fill hc (by omega), ← fillByte_last_iff h256 hc]
  generalize hedef : fillByte c (K - c - 1) = e
  refine ⟨fun h => ?_, fun he => ?_⟩
  · have h := Option.some.inj h
    rcases Nat.lt_or_ge e K with he | he
    · have hneg : -((K : ℤ) - e) = -((K - e : ℕ) : ℤ) := by omega
      have hlen := congrArg List.length h
      rw [hneg, sliceTo_neg _ (by omega), List.length_take, hPlen] at hlen
      omega
    · -- then at most `256-K` bytes are left, and the message has 128
      have h128 : 128 ≤ c := by
        by_contra hlt
        rw [fillByte, if_pos (by omega)] at hedef
        omega
      have he256 := fillByte_lt (c := c) (by omega) (K - c - 1)
      have hneg : -((K : ℤ) - e) = ((e - K : ℕ) : ℤ) := by omega
      have hlen := congrArg List.length h
      rw [hneg, sliceTo, if_pos (Int.natCast_nonneg _), Int.toNat_natCast, List.length_take,
        hPlen] at hlen
      have := Nat.mod_le b.length K
      omega
  · have hneg : -((K : ℤ) - e) = -((K - c : ℕ) : ℤ) := by omega
    have hend : b.length + (K - c) - (K - c) = b.length := Nat.add_sub_cancel ..
    rw [hneg, sliceTo_neg _ (by omega), hPlen, hend, List.take_left]

/-- **round trip**: whatever `K` stripes are left, `decode` gives back what `encode` was given if
and only if the padding carries its length -/
theorem decode_encode_iff (K N : ℕ) (z : Zfec K N) (hK : 1 ≤ K) (hKN : K ≤ N) (hN : N ≤ 256)
    (m : Text) (b : Bytes) (hb : m.toBytes = some b) : ∃ code, encode z m = some code ∧
      ∀ stripes : Fin N → Option Bytes, PartOf stripes code → K ≤ (present stripes).card →
        (decode z stripes = some b ↔ Restored K (b.length % K)) := by
  obtain ⟨w, hw, hlen⟩ := padded_of_le hK (hKN.trans hN) b
  refine ⟨_, encode_bytes z (hKN.trans hN) hb hw, fun stripes hpart hcard => ?_⟩
  rw [decode_codeword z hK hlen hpart, if_pos hcard, unsplit,
    flatten_split_padded hK (hKN.trans hN) hw]
  exact unpad_fill_iff (hKN.trans hN) rfl (Nat.mod_lt _ hK)

/-- the last two of four stripes -/
theorem decode_encode_four : ∃ code, encode Zfec.twoOfFour (.str [0x68, 0xE9]) = some code ∧
    decode Zfec.twoOfFour (fun i => if 2 ≤ i.val then some (code.getD i []) else none) =
      some [0x68, 0xC3, 0xA9] := by
  obtain ⟨code, hcode, h⟩ := decode_encode_iff 2 4 Zfec.twoOfFour (by decide) (by decide) (by decide)
    (.str [0x68, 0xE9]) [0x68, 0xC3, 0xA9] (by decide)
  refine ⟨code, hcode, (h _ (fun i b hb => ?_) ?_).mpr (.inl (by decide))⟩
  · exact Option.some.inj (Option.ite_none_right_eq_some.mp hb).2
  · have hpresent : (present fun i : Fin 4 => if 2 ≤ i.val then some (code.getD i []) else none) =
        {2, 3} := by
      ext i
      fin_cases i <;> simp [present]
    rw [hpresent]
    rfl

/-- 129 bytes in 130 blocks: the one byte of padding in the blocks is C2, not 129 -/
theorem decode_encode_loses : ¬ ∀ (K N : ℕ) (z : Zfec K N) (m : Text) (b : Bytes) (code : List Bytes)
    (stripes : Fin N → Option Bytes), 1 ≤ K → K ≤ N → N ≤ 256 → m.toBytes = some b →
    encode z m = some code → PartOf stripes code → K ≤ (present stripes).card →
      decode z stripes = some b := by
  intro hclaim
  obtain ⟨w, hw, hlen⟩ := padded_of_le (K := 130) (by decide) (by decide) (List.replicate 129 0)
  have hpart : PartOf (fun i : Fin 130 => some (((Zfec.whole 130).encode (split 130 w)).getD i []))
      ((Zfec.whole 130).encode (split 130 w)) := fun i b hb => Option.some.inj hb
  have hcard : 130 ≤ (present fun i : Fin 130 =>
      some (((Zfec.whole 130).encode (split 130 w)).getD i [])).card := by
    simp [present]
  have h := hclaim 130 130 (Zfec.whole 130) (.bytes (List.replicate 129 0)) _ _ _ (by decide)
    le_rfl (by decide) rfl (encode_bytes _ (by decide) rfl hw) hpart hcard
  rw [decode_codeword _ (by decide) hlen hpart, if_pos hcard, unsplit,
    flatten_split_padded (by decide) (by decide) hw,
    unpad_fill_iff (by decide) rfl (Nat.mod_lt _ (by decide)), List.length_replicate] at h
  revert h
  unfold Restored
  decide

end RBC
