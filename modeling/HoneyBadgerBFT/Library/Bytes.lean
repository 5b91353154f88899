import Mathlib.Data.UInt
import Mathlib.Tactic

/-!
# Byte strings

`Bytes` with the operations of Python's `bytes` and `str` that lists do not have: `s[:k]` for an
integer `k` (`sliceTo`) and the UTF-8 encoding of a string of code points (`utf8`, `encodeUtf8`), with
the number of bytes that it takes (`encodeUtf8_length`).
`Text` is a value that is `bytes` or a `str`; two of different types are never equal.
-/

abbrev Bytes := List UInt8

/-- `s[:k]`: a negative `k` counts from the end -/
def sliceTo (s : Bytes) (k : ℤ) : Bytes :=
  if 0 ≤ k then s.take k.toNat else s.take (s.length - (-k).toNat)

theorem sliceTo_neg (s : Bytes) {k : ℕ} (hk : 0 < k) :
    sliceTo s (-k) = s.take (s.length - k) := by
  rw [sliceTo, if_neg (by omega)]
  congr 2
  omega

/-- `chr(c).encode()`; `none`: there is no such character, or it is a surrogate -/
def utf8 (c : ℕ) : Option Bytes :=
  if c < 0x80 then some [c.toUInt8]
  else if c < 0x800 then some [(0xC0 + c / 64).toUInt8, (0x80 + c % 64).toUInt8]
  else if 0xD800 ≤ c ∧ c < 0xE000 then none
  else if c < 0x10000 then
    some [(0xE0 + c / 4096).toUInt8, (0x80 + c / 64 % 64).toUInt8, (0x80 + c % 64).toUInt8]
  else if c < 0x110000 then
    some [(0xF0 + c / 262144).toUInt8, (0x80 + c / 4096 % 64).toUInt8, (0x80 + c / 64 % 64).toUInt8,
      (0x80 + c % 64).toUInt8]
  else none

/-- `s.encode()` for a string given by its code points -/
def encodeUtf8 : List ℕ → Option Bytes
  | [] => some []
  | c :: s => do
    let b ← utf8 c
    let bs ← encodeUtf8 s
    pure (b ++ bs)

theorem encodeUtf8_append {s t : List ℕ} {b : Bytes} (h : encodeUtf8 (s ++ t) = some b) :
    ∃ x y, encodeUtf8 s = some x ∧ encodeUtf8 t = some y ∧ b = x ++ y := by
  induction s generalizing b with
  | nil => exact ⟨[], b, rfl, h, rfl⟩
  | cons c s ih =>
    obtain ⟨u, hu, h⟩ := Option.bind_eq_some_iff.mp h
    obtain ⟨v, hv, h⟩ := Option.bind_eq_some_iff.mp h
    obtain rfl := Option.some.inj h
    obtain ⟨x, y, hx, hy, rfl⟩ := ih hv
    refine ⟨u ++ x, y, ?_, hy, (List.append_assoc _ _ _).symm⟩
    simp [encodeUtf8, hu, hx]

theorem encodeUtf8_replicate {c : ℕ} (hc : c < 0x80) (n : ℕ) :
    encodeUtf8 (List.replicate n c) = some (List.replicate n c.toUInt8) := by
  induction n with
  | zero => rfl
  | succ n ih =>
    rw [List.replicate_succ, encodeUtf8, ih, utf8, if_pos hc]
    rfl

/-- a Unicode scalar value: surrogates are none -/
def Scalar (c : ℕ) : Prop := c < 0xD800 ∨ 0xE000 ≤ c ∧ c < 0x110000

instance : DecidablePred Scalar := fun c => inferInstanceAs (Decidable (c < 0xD800 ∨ _))

/-- the bytes of a character after its first one -/
def extraBytes (c : ℕ) : ℕ :=
  if c < 0x80 then 0 else if c < 0x800 then 1 else if c < 0x10000 then 2 else 3

theorem utf8_isSome_iff {c : ℕ} : (∃ b, utf8 c = some b) ↔ Scalar c := by
  unfold utf8 Scalar
  split
  · exact ⟨fun _ => by omega, fun _ => ⟨_, rfl⟩⟩
  split
  · exact ⟨fun _ => by omega, fun _ => ⟨_, rfl⟩⟩
  split
  · exact ⟨fun h => (by cases h.choose_spec), fun _ => by omega⟩
  split
  · exact ⟨fun _ => by omega, fun _ => ⟨_, rfl⟩⟩
  split
  · exact ⟨fun _ => by omega, fun _ => ⟨_, rfl⟩⟩
  · exact ⟨fun h => (by cases h.choose_spec), fun _ => by omega⟩

theorem utf8_length_eq {c : ℕ} {b : Bytes} (h : utf8 c = some b) : b.length = 1 + extraBytes c := by
  unfold utf8 at h
  unfold extraBytes
  split at h
  · next h1 =>
    rw [if_pos h1, ← Option.some.inj h]
    rfl
  next h1 =>
  rw [if_neg h1]
  split at h
  · next h2 =>
    rw [if_pos h2, ← Option.some.inj h]
    rfl
  next h2 =>
  rw [if_neg h2]
  split at h
  · cases h
  split at h
  · next h3 =>
    rw [if_pos h3, ← Option.some.inj h]
    rfl
  next h3 =>
  rw [if_neg h3]
  split at h
  · rw [← Option.some.inj h]
    rfl
  · cases h

/-- a string has a UTF-8 encoding if it has no surrogate -/
theorem encodeUtf8_isSome_iff {s : List ℕ} :
    (∃ b, encodeUtf8 s = some b) ↔ ∀ c ∈ s, Scalar c := by
  induction s with
  | nil => exact ⟨fun _ c hc => (by cases hc), fun _ => ⟨[], rfl⟩⟩
  | cons c s ih =>
    rw [List.forall_mem_cons, ← ih, ← utf8_isSome_iff]
    constructor
    · rintro ⟨b, h⟩
      obtain ⟨u, hu, h⟩ := Option.bind_eq_some_iff.mp h
      obtain ⟨v, hv, -⟩ := Option.bind_eq_some_iff.mp h
      exact ⟨⟨u, hu⟩, ⟨v, hv⟩⟩
    · rintro ⟨⟨u, hu⟩, ⟨v, hv⟩⟩
      exact ⟨u ++ v, by rw [encodeUtf8, hu, hv]; rfl⟩

theorem encodeUtf8_length {s : List ℕ} {b : Bytes} (h : encodeUtf8 s = some b) :
    b.length = s.length + (s.map extraBytes).sum := by
  induction s generalizing b with
  | nil =>
    obtain rfl := Option.some.inj h
    rfl
  | cons c s ih =>
    obtain ⟨u, hu, h⟩ := Option.bind_eq_some_iff.mp h
    obtain ⟨v, hv, h⟩ := Option.bind_eq_some_iff.mp h
    rw [← Option.some.inj h, List.length_append, utf8_length_eq hu, ih hv, List.length_cons,
      List.map_cons, List.sum_cons]
    omega

/-- a list of calls none of which raises -/
theorem mapM_eq_some {α β : Type} {g : α → Option β} {k : α → β} (l : List α)
    (h : ∀ x ∈ l, g x = some (k x)) : l.mapM g = some (l.map k) := by
  induction l with
  | nil => rfl
  | cons x l ih =>
    rw [List.mapM_cons, h x List.mem_cons_self, ih fun y hy => h y (List.mem_cons_of_mem _ hy)]
    rfl

/-- an input value: `bytes`, or a `str` given by its code points -/
inductive Text where
  | bytes (b : Bytes)
  | str (s : List ℕ)
deriving DecidableEq

/-- the bytes after `m = m.encode()`, which leaves `bytes` as they are; `none`: the string has a
surrogate -/
def Text.toBytes : Text → Option Bytes
  | .bytes b => some b
  | .str s => encodeUtf8 s

example : encodeUtf8 [0x41, 0xE9, 0x20AC, 0x1F600] =
    some [0x41, 0xC3, 0xA9, 0xE2, 0x82, 0xAC, 0xF0, 0x9F, 0x98, 0x80] := by decide
