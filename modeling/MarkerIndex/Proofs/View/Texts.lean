/-
Scalars and their texts.

The text that a scalar is coerced to leaves out its kind, and a constant its enumeration as well. The
type of the scalar brings both back: coercing the text to it gives the same scalar. Numbers with a
fraction are left aside.
-/
import MarkerIndex.Proofs.View.Typing

namespace MarkerIndex.Scalar

theorem denotes_toString (n : Int) : (string (toString n)).Denotes n :=
  ⟨_, Text.padded_self _, Number.spells_toString n⟩

/-- The text of a whole number is read as the number in its own width. -/
theorem coerce_text_of_width {s : Scalar} {w : Width} (h : s.type = w.type) :
    (string s.text).coerce w.type = .ok s := by
  obtain ⟨n, hn, hs, htext⟩ := exists_number h
  rw [htext]
  exact coerce_eq_ok_iff.2 ⟨n, denotes_toString n, hn, hs⟩

/-- A scalar that is no number with a fraction has a text that its type converts back to it. -/
theorem coerce_text_coerce (s : Scalar) (h : s.kind ≠ .float ∧ s.kind ≠ .double) :
    ∃ text, s.coerce .string = .ok (.string text) ∧
      (string text).coerce s.type = .ok s := by
  refine ⟨s.characters, rfl, ?_⟩
  cases s with
  | bool b => cases b <;> rfl
  | char c =>
    have hread : (string c.toString).character = .ok c := by
      simp [character, Char.toString_eq_singleton]
    show char <$> (string c.toString).character = _
    rw [hread]
    rfl
  | byte => exact coerce_text_of_width (w := .byte) rfl
  | short => exact coerce_text_of_width (w := .short) rfl
  | int => exact coerce_text_of_width (w := .int) rfl
  | long => exact coerce_text_of_width (w := .long) rfl
  | float => exact absurd rfl h.1
  | double => exact absurd rfl h.2
  | string | enum | «class» => rfl

/-- The least number has no positive counterpart, and is read back all the same. -/
theorem coerce_text_coerce_least :
    ∃ text, (long (-9223372036854775808)).coerce .string = .ok (.string text) ∧
      (string text).coerce .long = .ok (long (-9223372036854775808)) :=
  coerce_text_coerce (long (-9223372036854775808)) ⟨by decide, by decide⟩

/-- A blank is no number to be trimmed, and a constant takes the enumeration that is asked for. -/
example : (string " ").coerce .char = .ok (.char ' ') ∧
    (enum "Level" "HIGH").coerce .string = .ok (.string "HIGH") ∧
    (string "HIGH").coerce (.enum "Level") = .ok (.enum "Level" "HIGH") :=
  ⟨rfl, rfl, rfl⟩

end MarkerIndex.Scalar
