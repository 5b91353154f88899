import HoneyBadgerBFT.HoneyBadgerBlock.Entries
import HoneyBadgerBFT.HoneyBadgerBlock.Pickle

/-!
# Threshold encryption: the texts that the symmetric cipher takes

`pad` counts the characters of a text, and the cipher the bytes of its UTF-8 encoding, which has to
be whole blocks.  The two agree modulo 16 for the texts with a multiple of 16 further bytes
(`extraBytes`); these are decrypted to what they were, and for the others `encrypt` raises, and with
it the block of the party that proposes them.

* `encrypt_iff`         the texts that are encrypted;
* `cipher_round_trip`   they are those with a round trip;
* `cipher_rejects`      the text of one character that is not among them.
-/

namespace TPKE

section
variable {p : ℕ} {G T : Type} [CommGroup G] [CommGroup T] {E : Packages p G T} {key iv : Bytes}

/-- the padded text has whole blocks of bytes if the further bytes of its characters have -/
theorem pad_length {raw : List ℕ} {b : Bytes} (h : encodeUtf8 (pad raw) = some b) :
    b.length % 16 = 0 ↔ 16 ∣ (raw.map extraBytes).sum := by
  have hmod : raw.length % 16 < 16 := Nat.mod_lt _ (by decide)
  have hascii : extraBytes (16 - raw.length % 16) = 0 := if_pos (by omega)
  have hlen := encodeUtf8_length h
  rw [pad, BS, List.length_append, List.length_replicate, List.map_append, List.sum_append,
    List.map_replicate, hascii, List.sum_replicate, smul_zero, Nat.add_zero] at hlen
  omega

/-- **the texts that are encrypted** -/
theorem encrypt_iff (hkey : key.length = 32) (hiv : iv.length = 16) (raw : List ℕ) :
    (∃ c, encrypt E key raw iv = some c) ↔
      (∀ c ∈ raw, Scalar c) ∧ 16 ∣ (raw.map extraBytes).sum := by
  have hpadding : ∀ c ∈ List.replicate (BS - raw.length % BS) (BS - raw.length % BS), Scalar c := by
    intro c hc
    have hle : BS - raw.length % BS ≤ 16 := Nat.sub_le _ _
    obtain rfl := (List.mem_replicate.mp hc).2
    exact .inl (by omega)
  have htext : (∃ b, encodeUtf8 (pad raw) = some b) ↔ ∀ c ∈ raw, Scalar c := by
    rw [encodeUtf8_isSome_iff, pad, List.forall_mem_append]
    exact and_iff_left hpadding
  unfold encrypt
  rw [if_pos ⟨hkey, hiv⟩, ← htext]
  constructor
  · rintro ⟨c, h⟩
    obtain ⟨b, hb, h⟩ := Option.bind_eq_some_iff.mp h
    split at h
    · next hmod => exact ⟨⟨b, hb⟩, (pad_length hb).mp hmod⟩
    · cases h
  · rintro ⟨⟨b, hb⟩, hdvd⟩
    refine ⟨iv ++ E.cbcEncrypt key iv b, ?_⟩
    rw [hb]
    exact if_pos ((pad_length hb).mpr hdvd)

/-- **the texts with a round trip**: for these `encrypt` does not raise, and `decrypt` gives their
UTF-8 encoding -/
theorem cipher_round_trip (E : Packages p G T) (key iv : Bytes) (hkey : key.length = 32)
    (hiv : iv.length = 16) (raw : List ℕ) :
    (∃ c b, encrypt E key raw iv = some c ∧ encodeUtf8 raw = some b ∧
      decrypt E key (.bytes c) = some b) ↔
    (∀ c ∈ raw, Scalar c) ∧ 16 ∣ (raw.map extraBytes).sum := by
  rw [← encrypt_iff (E := E) hkey hiv]
  constructor
  · rintro ⟨c, b, h, -⟩
    exact ⟨c, h⟩
  · rintro ⟨c, h⟩
    obtain ⟨b, hb, hdec⟩ := decrypt_encrypt h
    exact ⟨c, b, h, hb, hdec⟩

end

/-- sixteen characters of two bytes, and an ASCII letter -/
theorem cipher_round_trip_sixteen : ∃ c b,
    encrypt Block.five (List.replicate 32 7) (List.replicate 16 0xE9 ++ [0x41])
      (List.replicate 16 1) = some c ∧
    encodeUtf8 (List.replicate 16 0xE9 ++ [0x41]) = some b ∧
    decrypt Block.five (List.replicate 32 7) (.bytes c) = some b :=
  (cipher_round_trip Block.five _ _ rfl rfl _).mpr ⟨by decide, by decide⟩

/-- one `é` is padded to sixteen characters, which are seventeen bytes -/
theorem cipher_rejects : ¬ ∀ (key iv : Bytes) (raw : List ℕ), key.length = 32 → iv.length = 16 →
    (∀ c ∈ raw, Scalar c) → ∃ c b, encrypt Block.five key raw iv = some c ∧
      encodeUtf8 raw = some b ∧ decrypt Block.five key (.bytes c) = some b := by
  intro hclaim
  obtain ⟨c, b, h, -⟩ := hclaim (List.replicate 32 7) (List.replicate 16 1) [0xE9] rfl rfl (by decide)
  have hdvd := ((encrypt_iff rfl rfl [0xE9]).mp ⟨c, h⟩).2
  exact absurd hdvd (by decide)

/-- **a block raises** for a proposal that is not encrypted -/
theorem block_raises {p : ℕ} [Fact p.Prime] {G T : Type} [CommGroup G] [CommGroup T] [DecidableEq T]
    {E : Packages p G T} {P : Block.Pickle} {N f : ℕ} {PK : PublicKey G} {SK : PrivateKey p G}
    {prop : List ℕ} {key iv : Bytes} {r : ZMod p} (hkey : key.length = 32) (hiv : iv.length = 16)
    (hprop : ¬ 16 ∣ (prop.map extraBytes).sum) (vall : List (Option Bytes))
    (arrivals : List (Fin N × List (Option G))) :
    Block.honeybadgerBlock E P N f PK SK (Block.propose E P PK prop key r iv) vall arrivals =
      .raised := by
  have hnone : encrypt E key prop iv = none := by
    by_contra hc
    obtain ⟨c, h⟩ := Option.ne_none_iff_exists'.mp hc
    exact hprop ((encrypt_iff hkey hiv prop).mp ⟨c, h⟩).2
  rw [Block.propose, hnone]
  rfl

end TPKE
