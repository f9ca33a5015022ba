/-
Texts survive their byte form: the 16-bit units of a text decode to it, the bytes of any units
below 0x10000 decode to these units, and so the modified UTF-8 bytes of a text spell that text.
Reading takes plain seven-bit bytes one by one; this gives the same text as grouping them.
-/
import MarkerIndex.Text.ModifiedUtf8
import Mathlib.Tactic.Common

namespace MarkerIndex.Text

/-! ## Units of a text -/

namespace Utf16

theorem toNat_range (c : Char) : c.toNat < 0xD800 ∨ (0xE000 ≤ c.toNat ∧ c.toNat < 0x110000) := by
  have h := c.valid
  unfold UInt32.isValidChar Nat.isValidChar at h
  change c.toNat < 0xD800 ∨ (0xDFFF < c.toNat ∧ c.toNat < 0x110000) at h
  omega

/-- A number that is not a surrogate is that of a character. -/
theorem toNat_ofNat {n : Nat} (h : n < 0xD800 ∨ 0xE000 ≤ n) (hlt : n < 0x110000) :
    (Char.ofNat n).toNat = n := by
  have hvalid : n.isValidChar := by
    show n < 0xD800 ∨ 0xDFFF < n ∧ n < 0x110000
    omega
  unfold Char.ofNat
  rw [dif_pos hvalid]
  rfl

theorem units_lt (c : Char) : ∀ u ∈ units c, u < 0x10000 := by
  intro u hu
  have hc := toNat_range c
  unfold units at hu
  generalize c.toNat = n at hc hu
  split at hu
  · rw [List.mem_singleton] at hu; omega
  · simp only [List.mem_cons, List.not_mem_nil, or_false] at hu
    rcases hu with hu | hu <;> omega

theorem encode_lt (cs : List Char) : ∀ u ∈ encode cs, u < 0x10000 := by
  intro u hu
  obtain ⟨c, -, hc⟩ := List.mem_flatMap.1 hu
  exact units_lt c u hc

/-- A unit that is no surrogate is a character of its own. -/
theorem decode_single {u : Nat} (h : u < 0xD800 ∨ 0xE000 ≤ u) (rest : List Nat) :
    decode (u :: rest) = (decode rest).map (Char.ofNat u :: ·) := by
  have hh : isHighSurrogate u = false := by unfold isHighSurrogate; simp; omega
  have hl : isLowSurrogate u = false := by unfold isLowSurrogate; simp; omega
  rw [decode.eq_def]
  simp [hh, hl]

theorem decode_pair {u v : Nat} (hu : isHighSurrogate u = true) (hv : isLowSurrogate v = true)
    (rest : List Nat) : decode (u :: v :: rest) = (decode rest).map (pair u v :: ·) := by
  rw [decode.eq_def]
  simp [hu, hv]

theorem pair_halves (c : Char) (h : 0x10000 ≤ c.toNat) :
    pair (0xD800 + (c.toNat - 0x10000) / 0x400) (0xDC00 + (c.toNat - 0x10000) % 0x400) = c := by
  have join : ∀ n, 0x10000 ≤ n → 0x10000 + (0xD800 + (n - 0x10000) / 0x400 - 0xD800) * 0x400 +
      (0xDC00 + (n - 0x10000) % 0x400 - 0xDC00) = n := fun n hn => by omega
  unfold pair
  rw [join c.toNat h, Char.ofNat_toNat]

theorem decode_units (c : Char) (rest : List Nat) :
    decode (units c ++ rest) = (decode rest).map (c :: ·) := by
  have hc := toNat_range c
  unfold units
  split
  · rw [List.singleton_append, decode_single (by omega), Char.ofNat_toNat]
  · rw [List.cons_append, List.singleton_append, decode_pair, pair_halves c (by omega)]
    · unfold isHighSurrogate; simp; omega
    · unfold isLowSurrogate; simp; omega

/-- The units of a text decode to the text. -/
theorem decode_encode (cs : List Char) : decode (encode cs) = some cs := by
  induction cs with
  | nil => rfl
  | cons c cs ih =>
    change decode (units c ++ encode cs) = _
    rw [decode_units, ih]; rfl

end Utf16

/-! ## Bytes of units -/

namespace ModifiedUtf8

theorem decodeUnits_one {a : UInt8} (h : a.toNat < 0x80) (rest : List UInt8) :
    decodeUnits (a :: rest) = (decodeUnits rest).map (a.toNat :: ·) := by
  rw [decodeUnits.eq_def]; simp [h]

theorem decodeUnits_two {a b : UInt8} (ha : a.toNat / 0x20 = 6) (hb : b.toNat / 0x40 = 2)
    (rest : List UInt8) : decodeUnits (a :: b :: rest) =
      (decodeUnits rest).map ((a.toNat % 0x20 * 0x40 + b.toNat % 0x40) :: ·) := by
  have h1 : ¬ a.toNat < 0x80 := by omega
  rw [decodeUnits.eq_def]
  simp [h1, ha, isContinuation, hb, payload]

theorem decodeUnits_three {a b c : UInt8} (ha : a.toNat / 0x10 = 14) (hb : b.toNat / 0x40 = 2)
    (hc : c.toNat / 0x40 = 2) (rest : List UInt8) : decodeUnits (a :: b :: c :: rest) =
      (decodeUnits rest).map
        ((a.toNat % 0x10 * 0x1000 + b.toNat % 0x40 * 0x40 + c.toNat % 0x40) :: ·) := by
  have h1 : ¬ a.toNat < 0x80 := by omega
  have h2 : ¬ a.toNat / 0x20 = 6 := by omega
  rw [decodeUnits.eq_def]
  simp [h1, h2, ha, isContinuation, hb, hc, payload]

/-- The bytes of a unit are one group, which stands for that unit. -/
theorem decodeUnits_encodeUnit {u : Nat} (hu : u < 0x10000) (rest : List UInt8) :
    decodeUnits (encodeUnit u ++ rest) = (decodeUnits rest).map (u :: ·) := by
  have byte : ∀ n, n < 256 → (UInt8.ofNat n).toNat = n := fun n hn => by simp; omega
  unfold encodeUnit
  -- One, two or three bytes, by the size of the unit.
  split_ifs with h1 h2
  · have h1' : 0 < u ∧ u < 0x80 := by simpa using h1
    rw [List.singleton_append, decodeUnits_one (by rw [byte] <;> omega), byte u (by omega)]
  · rw [List.cons_append, List.singleton_append,
      decodeUnits_two (by rw [byte] <;> omega) (by rw [byte] <;> omega),
      byte _ (by omega), byte _ (by omega)]
    rw [show (0xC0 + u / 0x40) % 0x20 * 0x40 + (0x80 + u % 0x40) % 0x40 = u by omega]
  · rw [List.cons_append, List.cons_append, List.singleton_append,
      decodeUnits_three (by rw [byte] <;> omega) (by rw [byte] <;> omega) (by rw [byte] <;> omega),
      byte _ (by omega), byte _ (by omega), byte _ (by omega)]
    rw [show (0xE0 + u / 0x1000) % 0x10 * 0x1000 + (0x80 + u / 0x40 % 0x40) % 0x40 * 0x40 +
      (0x80 + u % 0x40) % 0x40 = u by omega]

theorem decodeUnits_flatMap {us : List Nat} (h : ∀ u ∈ us, u < 0x10000) :
    decodeUnits (us.flatMap encodeUnit) = .ok us := by
  induction us with
  | nil => rfl
  | cons u us ih =>
    rw [List.flatMap_cons, decodeUnits_encodeUnit (h u (by simp)),
      ih fun v hv => h v (by simp [hv])]
    rfl

/-! ## Plain bytes -/

theorem decodeUnits_ascii {bytes : List UInt8} (h : ∀ b ∈ bytes, b.toNat < 0x80) :
    decodeUnits bytes = .ok (bytes.map (·.toNat)) := by
  induction bytes with
  | nil => rfl
  | cons b bytes ih =>
    rw [decodeUnits_one (h b (by simp)), ih fun c hc => h c (by simp [hc])]
    rfl

theorem utf16_decode_ascii {us : List Nat} (h : ∀ u ∈ us, u < 0x80) :
    Utf16.decode us = some (us.map Char.ofNat) := by
  induction us with
  | nil => rfl
  | cons u us ih =>
    have hu := h u (by simp)
    rw [Utf16.decode_single (by omega), ih fun v hv => h v (by simp [hv])]
    rfl

/-- Plain bytes taken one by one spell what their groups spell. -/
theorem decode_eq_decodeGroups (bytes : List UInt8) : decode bytes = decodeGroups bytes := by
  unfold decode
  split
  next h =>
    have hb : ∀ b ∈ bytes, b.toNat < 0x80 := fun b hb => by
      simpa [isAscii] using List.all_eq_true.1 h b hb
    have hu : ∀ u ∈ bytes.map (·.toNat), u < 0x80 := by simpa using hb
    unfold decodeGroups
    rw [decodeUnits_ascii hb]
    simp only [utf16_decode_ascii hu, List.map_map]
    rfl
  next => rfl

/-- The bytes of a text spell the text. -/
theorem decode_encode (s : String) : decode (encode s) = .ok s := by
  rw [decode_eq_decodeGroups]
  unfold decodeGroups encode
  rw [decodeUnits_flatMap (Utf16.encode_lt _)]
  simp only [Utf16.decode_encode, String.ofList_toList]

end ModifiedUtf8

end MarkerIndex.Text
