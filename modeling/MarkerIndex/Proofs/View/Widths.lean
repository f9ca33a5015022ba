/-
Whole numbers across widths.

A scalar of one of the four widths denotes its number, a character its code point, and a text the
number of the numeral that it is, blanks around it aside; no other scalar denotes a number. Coercion
to a width is exact: it succeeds if the scalar denotes a number in the range of the width, and the
scalar it answers then denotes the same number. Everything goes through 64 bits, so a number beyond
these is only found in a text, which is then as unreadable as one without a numeral.
-/
import MarkerIndex.Proofs.Number.Numerals
import MarkerIndex.View.Coercion

namespace MarkerIndex

open Number

/-! ## Widths -/

/-- The widths of whole numbers. -/
inductive Width where
  | byte | short | int | long
  deriving DecidableEq, Repr

namespace Width

def type : Width → ReturnType
  | .byte => .byte
  | .short => .short
  | .int => .int
  | .long => .long

/-- The least number of a width. -/
def low : Width → Int
  | .byte => -128
  | .short => -32768
  | .int => -2147483648
  | .long => -9223372036854775808

/-- The greatest number of a width. -/
def high : Width → Int
  | .byte => 127
  | .short => 32767
  | .int => 2147483647
  | .long => 9223372036854775807

/-- The number lies in the range of the width. -/
def Holds (w : Width) (n : Int) : Prop := w.low ≤ n ∧ n ≤ w.high

instance (w : Width) (n : Int) : Decidable (w.Holds n) :=
  inferInstanceAs (Decidable (w.low ≤ n ∧ n ≤ w.high))

/-- The scalar of the width that has the number, if the width holds it. -/
def scalar : Width → Int → Scalar
  | .byte, n => .byte (Int8.ofInt n)
  | .short, n => .short (Int16.ofInt n)
  | .int, n => .int (Int32.ofInt n)
  | .long, n => .long (Int64.ofInt n)

variable {w : Width} {n : Int}

theorem Holds.long (h : w.Holds n) : Width.long.Holds n := by
  cases w <;> simp only [Holds, low, high] at h ⊢ <;> omega

theorem long_holds_toInt (n : Int64) : Width.long.Holds n.toInt := by
  have := n.le_toInt
  have := n.toInt_lt
  simp only [Holds, low, high]
  omega

theorem toInt_ofInt (h : Width.long.Holds n) : (Int64.ofInt n).toInt = n := by
  simp only [Holds, low, high] at h
  exact Int64.toInt_ofInt_of_le (by omega) (by omega)

end Width

namespace Scalar

/-! ## What a scalar denotes -/

/-- The scalar denotes the whole number. -/
def Denotes : Scalar → Int → Prop
  | .byte m, n => n = m.toInt
  | .short m, n => n = m.toInt
  | .int m, n => n = m.toInt
  | .long m, n => n = m.toInt
  | .char c, n => n = c.toNat
  | .string text, n => ∃ content, Text.Padded content text.toList ∧ Spells content n
  | _, _ => False

variable {s : Scalar} {target : ReturnType}

theorem readWhole_trimChars_iff {text : String} {n : Int} :
    readWhole (Text.trimChars text.toList) = .ok n ↔
      (string text).Denotes n ∧ Width.long.Holds n := by
  rw [readWhole_eq_ok_iff, spells_trimChars_iff]
  rfl

/-- A scalar is converted to 64 bits first, and that finds exactly what it denotes within them. -/
theorem whole_eq_ok_iff {n : Int64} : s.whole target = .ok n ↔ s.Denotes n.toInt := by
  have hn := Width.long_holds_toInt n
  cases s with
  | byte m | short m | int m | long m =>
    simp only [whole, Denotes, Except.ok.injEq, ← Int64.toInt_inj, Int8.toInt_toInt64,
      Int16.toInt_toInt64, Int32.toInt_toInt64]
    exact eq_comm
  | char c =>
    have hc : Width.long.Holds c.toNat := by
      have : c.toNat < 2 ^ 32 := c.val.toNat_lt
      simp only [Width.Holds, Width.low, Width.high]
      omega
    have hvalue : (Int64.ofNat c.toNat).toInt = c.toNat := by
      rw [← Int64.ofInt_eq_ofNat]
      exact Width.toInt_ofInt hc
    simp only [whole, Denotes, Except.ok.injEq, ← Int64.toInt_inj, hvalue]
    exact eq_comm
  | string text =>
    have hread : readWhole (Text.trimChars text.toList) = .ok n.toInt ↔
        (string text).Denotes n.toInt := readWhole_trimChars_iff.trans (and_iff_left hn)
    rw [← hread]
    unfold whole
    dsimp only
    cases hm : readWhole (Text.trimChars text.toList) with
    | error flaw => exact ⟨nofun, nofun⟩
    | ok m =>
      have hvalue := Width.toInt_ofInt (readWhole_trimChars_iff.1 hm).2
      simp only [Except.ok.injEq, ← Int64.toInt_inj, hvalue]
  | _ => exact ⟨nofun, False.elim⟩

theorem whole_eq_whole_iff :
    (∃ flaw, s.whole target = .error (.whole flaw)) ↔
      s.kind = .string ∧ ¬ ∃ n, s.Denotes n ∧ Width.long.Holds n := by
  cases s with
  | string text =>
    simp only [← readWhole_trimChars_iff, kind, true_and]
    unfold whole
    dsimp only
    cases readWhole (Text.trimChars text.toList) with
    | error flaw => simp
    | ok m => simp
  | _ => simp [whole, kind, incompatible]

theorem whole_eq_incompatible_iff {form type : String} :
    s.whole target = .error (.incompatible form type) ↔
      form = s.kind.name ∧ type = target.text ∧ s.kind ≠ .string ∧ ¬ ∃ n, s.Denotes n := by
  cases s with
  | string text =>
    unfold whole
    dsimp only
    cases readWhole (Text.trimChars text.toList) <;> simp [kind]
  | bool | float | double | enum | «class» => simp [whole, incompatible, kind, Denotes, eq_comm]
  | _ => simp [whole, Denotes]

theorem whole_ne_range {value : Int64} {type : String} :
    s.whole target ≠ .error (.range value type) := by
  cases s with
  | string text =>
    unfold whole
    dsimp only
    cases readWhole (Text.trimChars text.toList) <;> nofun
  | _ => nofun

/-! ## Coercion to a width -/

variable {w : Width}

theorem map_wholeWithin (f : Int64 → Scalar) (s : Scalar) (target : ReturnType) :
    f <$> s.wholeWithin w.low w.high target =
      s.whole target >>= fun n =>
        if w.Holds n.toInt then .ok (f n) else .error (.range n target.text) := by
  unfold wholeWithin
  cases s.whole target with
  | error flaw => rfl
  | ok n =>
    show f <$> (if w.Holds n.toInt then _ else _) = if w.Holds n.toInt then _ else _
    split <;> rfl

/-- Coercion to a width is conversion to 64 bits, from where a number is narrowed if it fits. -/
theorem coerce_width (s : Scalar) (w : Width) :
    s.coerce w.type = s.whole w.type >>= fun n =>
      if w.Holds n.toInt then .ok (w.scalar n.toInt) else .error (.range n w.type.text) := by
  cases w with
  | byte =>
    simp only [Width.scalar, Int8.ofInt_int64ToInt]
    exact map_wholeWithin (w := .byte) _ s .byte
  | short =>
    simp only [Width.scalar, Int16.ofInt_int64ToInt]
    exact map_wholeWithin (w := .short) _ s .short
  | int =>
    simp only [Width.scalar, Int32.ofInt_int64ToInt]
    exact map_wholeWithin (w := .int) _ s .int
  | long =>
    simp only [Width.scalar, Int64.ofInt_toInt, Width.long_holds_toInt, if_true]
    show long <$> s.whole .long = s.whole .long >>= fun n => .ok (long n)
    cases s.whole .long <;> rfl

/-- The scalar of a width has the number exactly if the width holds it. -/
theorem denotes_scalar_iff {n : Int} : (w.scalar n).Denotes n ↔ w.Holds n := by
  cases w with
  | byte =>
    have hlow := (Int8.ofInt n).le_toInt
    have hhigh := (Int8.ofInt n).toInt_lt
    have hvalue := Int8.toInt_ofInt_of_le (n := n)
    simp only [Width.scalar, Denotes, Width.Holds, Width.low, Width.high]
    omega
  | short =>
    have hlow := (Int16.ofInt n).le_toInt
    have hhigh := (Int16.ofInt n).toInt_lt
    have hvalue := Int16.toInt_ofInt_of_le (n := n)
    simp only [Width.scalar, Denotes, Width.Holds, Width.low, Width.high]
    omega
  | int =>
    have hlow := (Int32.ofInt n).le_toInt
    have hhigh := (Int32.ofInt n).toInt_lt
    have hvalue := Int32.toInt_ofInt_of_le (n := n)
    simp only [Width.scalar, Denotes, Width.Holds, Width.low, Width.high]
    omega
  | long =>
    have hlow := (Int64.ofInt n).le_toInt
    have hhigh := (Int64.ofInt n).toInt_lt
    have hvalue := Int64.toInt_ofInt_of_le (n := n)
    simp only [Width.scalar, Denotes, Width.Holds, Width.low, Width.high]
    omega

/-- A number of 64 bits that is denoted is narrowed, or out of range. -/
theorem coerce_of_denotes {n : Int} (h : s.Denotes n) (hn : Width.long.Holds n) :
    s.coerce w.type = if w.Holds n then .ok (w.scalar n)
      else .error (.range (Int64.ofInt n) w.type.text) := by
  have hvalue := Width.toInt_ofInt hn
  have hwhole : s.whole w.type = .ok (Int64.ofInt n) := by
    rwa [whole_eq_ok_iff, hvalue]
  rw [coerce_width, hwhole]
  show (if w.Holds (Int64.ofInt n).toInt then _ else _) = _
  rw [hvalue]

/-- Where no number of 64 bits is denoted, coercion fails as conversion to them does. -/
theorem coerce_of_not_denotes (h : ¬ ∃ n, s.Denotes n ∧ Width.long.Holds n) :
    ∃ flaw, s.whole w.type = .error flaw ∧ s.coerce w.type = .error flaw := by
  rw [coerce_width]
  cases hwhole : s.whole w.type with
  | error flaw => exact ⟨flaw, rfl, rfl⟩
  | ok n => exact absurd ⟨n.toInt, whole_eq_ok_iff.1 hwhole, Width.long_holds_toInt n⟩ h

theorem coerce_eq_ok_iff {coerced : Scalar} : s.coerce w.type = .ok coerced ↔
    ∃ n, s.Denotes n ∧ w.Holds n ∧ coerced = w.scalar n := by
  constructor
  · intro h
    by_cases hdenotes : ∃ n, s.Denotes n ∧ Width.long.Holds n
    · obtain ⟨n, hn, hn'⟩ := hdenotes
      rw [coerce_of_denotes hn hn'] at h
      split at h
      next hholds => exact ⟨n, hn, hholds, (Except.ok.inj h).symm⟩
      next => cases h
    · obtain ⟨flaw, -, hflaw⟩ := coerce_of_not_denotes (w := w) hdenotes
      rw [hflaw] at h
      cases h
  · rintro ⟨n, hn, hholds, rfl⟩
    rw [coerce_of_denotes hn hholds.long, if_pos hholds]

theorem coerce_eq_range_iff {value : Int64} {type : String} :
    s.coerce w.type = .error (.range value type) ↔
      type = w.type.text ∧ s.Denotes value.toInt ∧ ¬ w.Holds value.toInt := by
  constructor
  · intro h
    by_cases hdenotes : ∃ n, s.Denotes n ∧ Width.long.Holds n
    · obtain ⟨n, hn, hn'⟩ := hdenotes
      rw [coerce_of_denotes hn hn'] at h
      split at h
      next => cases h
      next hholds =>
        cases h
        rw [Width.toInt_ofInt hn']
        exact ⟨rfl, hn, hholds⟩
    · obtain ⟨flaw, hwhole, hflaw⟩ := coerce_of_not_denotes (w := w) hdenotes
      rw [hflaw] at h
      cases h
      exact absurd hwhole whole_ne_range
  · rintro ⟨rfl, hvalue, hholds⟩
    rw [coerce_of_denotes hvalue (Width.long_holds_toInt value), if_neg hholds, Int64.ofInt_toInt]

/-- A flaw other than a range is one of the conversion to 64 bits. -/
theorem coerce_eq_error_iff {flaw : ConversionFlaw}
    (h : ∀ value type, flaw ≠ .range value type) :
    s.coerce w.type = .error flaw ↔ s.whole w.type = .error flaw := by
  rw [coerce_width]
  cases s.whole w.type with
  | error cause => exact ⟨by rintro ⟨⟩; rfl, by rintro ⟨⟩; rfl⟩
  | ok n =>
    show (if w.Holds n.toInt then _ else _) = _ ↔ _
    split
    next => exact ⟨nofun, nofun⟩
    next => exact ⟨fun hrange => absurd (Except.error.inj hrange).symm (h _ _), nofun⟩

/-- Coercion to a width: whether it succeeds, and each way to fail, is decided by what the scalar
denotes. -/
theorem coerce_whole_iff (s : Scalar) (w : Width) :
    (∀ coerced, s.coerce w.type = .ok coerced ↔
        ∃ n, s.Denotes n ∧ w.Holds n ∧ coerced = w.scalar n) ∧
      (∀ n, (w.scalar n).Denotes n ↔ w.Holds n) ∧
      (∀ value type, s.coerce w.type = .error (.range value type) ↔
        type = w.type.text ∧ s.Denotes value.toInt ∧ ¬ w.Holds value.toInt) ∧
      ((∃ flaw, s.coerce w.type = .error (.whole flaw)) ↔
        s.kind = .string ∧ ¬ ∃ n, s.Denotes n ∧ Width.long.Holds n) ∧
      ∀ form type, s.coerce w.type = .error (.incompatible form type) ↔
        form = s.kind.name ∧ type = w.type.text ∧ s.kind ≠ .string ∧ ¬ ∃ n, s.Denotes n := by
  refine ⟨fun _ => coerce_eq_ok_iff, fun _ => denotes_scalar_iff, fun _ _ => coerce_eq_range_iff,
    ?_, fun form type => ?_⟩
  · rw [← whole_eq_whole_iff]
    exact exists_congr fun flaw => coerce_eq_error_iff fun _ _ => nofun
  · refine Iff.trans (coerce_eq_error_iff ?_) whole_eq_incompatible_iff
    exact fun _ _ => nofun

/-- The least number of a width is read, and the one below it is out of range. -/
example : (string " -128\t").coerce .byte = .ok (.byte (-128)) ∧
    (string "-129").coerce .byte = .error (.range (-129) "byte") ∧
    (string "-").coerce .byte = .error (.whole .invalidDigit) :=
  ⟨rfl, rfl, rfl⟩

end Scalar
end MarkerIndex
