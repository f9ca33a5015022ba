/-
Numerals: the texts of whole numbers.

A numeral is one or more decimal digits, with a sign in front or none. Reading accepts exactly the
numerals of the numbers of 64 bits: it gives up at the first digit that leaves their range, and no
further digit leads back. The text of a number is a numeral of it. What is read is taken from
between blanks, and a numeral contains none.
-/
import MarkerIndex.Number.Reading
import MarkerIndex.Text.Blank
import Mathlib.Data.List.DropRight

namespace MarkerIndex

/-! ## Blanks around a content -/

namespace Text

/-- The characters are the content with blanks around it. -/
def Padded (content cs : List Char) : Prop :=
  ∃ before after, (∀ c ∈ before, isBlank c = true) ∧ (∀ c ∈ after, isBlank c = true) ∧
    cs = before ++ content ++ after

theorem padded_self (cs : List Char) : Padded cs cs := ⟨[], [], by simp⟩

theorem trimChars_eq (cs : List Char) :
    trimChars cs = (cs.dropWhile isBlank).rdropWhile isBlank := rfl

theorem padded_trimChars (cs : List Char) : Padded (trimChars cs) cs := by
  refine ⟨cs.takeWhile isBlank, (cs.dropWhile isBlank).rtakeWhile isBlank,
    fun c hc => List.mem_takeWhile_imp hc, fun c hc => List.mem_rtakeWhile_imp hc, ?_⟩
  rw [trimChars_eq, List.append_assoc, List.rdropWhile_append_rtakeWhile,
    List.takeWhile_append_dropWhile]

theorem Padded.trimChars_eq {content cs : List Char} (h : Padded content cs)
    (hcontent : ∀ c ∈ content, isBlank c = false) : trimChars cs = content := by
  obtain ⟨before, after, hbefore, hafter, rfl⟩ := h
  rw [Text.trimChars_eq, List.append_assoc, List.dropWhile_append_of_pos hbefore]
  cases content with
  | nil =>
    rw [List.nil_append, List.dropWhile_eq_nil_iff.2 hafter]
    rfl
  | cons c content =>
    rw [List.cons_append, List.dropWhile_cons_of_neg (by simp [hcontent c]), List.rdropWhile,
      ← List.cons_append, List.reverse_append, List.dropWhile_append_of_pos (by simpa using hafter)]
    have hlast : ((c :: content).rdropWhile isBlank) = c :: content := by
      refine List.rdropWhile_eq_self_iff.2 fun hne => ?_
      simp [hcontent _ (List.getLast_mem hne)]
    exact hlast

end Text

namespace Number

/-! ## Digits -/

theorem digitValue?_eq (c : Char) :
    digitValue? c = if c.isDigit then some (c.toNat - '0'.toNat) else none := by
  have hdigit : ('0' ≤ c ∧ c ≤ '9') ↔ c.isDigit = true := Char.isDigit_iff_toNat.symm
  simp only [digitValue?, hdigit]

theorem le_ofDigitChars (cs : List Char) (start : Nat) : start ≤ Nat.ofDigitChars 10 cs start := by
  induction cs generalizing start with
  | nil => exact Nat.le_refl _
  | cons c cs ih =>
    rw [Nat.ofDigitChars_cons]
    have := ih (10 * start + (c.toNat - '0'.toNat))
    omega

/-- The whole numbers of 64 bits. -/
def IsWhole (n : Int) : Prop := leastWhole ≤ n ∧ n ≤ greatestWhole

/-- A natural number with a sign put on it. -/
def withSign (negative : Bool) (n : Nat) : Int := if negative then -n else n

theorem withSign_step (negative : Bool) (n d : Nat) :
    withSign negative n * 10 + (if negative then -(d : Int) else d) =
      withSign negative (10 * n + d) := by
  cases negative <;> simp [withSign] <;> omega

/-- A number with more digits is further from zero, so it does not come back into the range. -/
theorem isWhole_of_le {negative : Bool} {n m : Nat} (h : n ≤ m)
    (hm : IsWhole (withSign negative m)) : IsWhole (withSign negative n) := by
  unfold IsWhole withSign leastWhole greatestWhole at *
  cases negative <;> simp at * <;> omega

/-- From a number in the range, all characters are read exactly if they are digits and the number
with them is in the range. -/
theorem readDigits_eq_ok_iff {negative : Bool} {start : Nat} {cs : List Char} {n : Int}
    (hstart : IsWhole (withSign negative start)) :
    readDigits negative (withSign negative start) cs = .ok n ↔
      (∀ c ∈ cs, c.isDigit = true) ∧ n = withSign negative (Nat.ofDigitChars 10 cs start) ∧
        IsWhole n := by
  induction cs generalizing start with
  | nil =>
    rw [readDigits, Nat.ofDigitChars_nil, Except.ok.injEq]
    constructor
    · rintro rfl
      exact ⟨by simp, rfl, hstart⟩
    · rintro ⟨-, rfl, -⟩
      rfl
  | cons c cs ih =>
    rw [readDigits, digitValue?_eq, Nat.ofDigitChars_cons, List.forall_mem_cons]
    by_cases hc : c.isDigit = true
    · rw [if_pos hc]
      dsimp only
      rw [withSign_step]
      generalize 10 * start + (c.toNat - '0'.toNat) = next
      have hnext : ((c.isDigit = true ∧ ∀ c ∈ cs, c.isDigit = true) ∧
          n = withSign negative (Nat.ofDigitChars 10 cs next) ∧ IsWhole n) →
            IsWhole (withSign negative next) := by
        rintro ⟨-, rfl, hn⟩
        exact isWhole_of_le (le_ofDigitChars cs next) hn
      split
      next hlow => exact ⟨nofun, fun h => absurd hlow (Int.not_lt.2 (hnext h).1)⟩
      next hlow =>
        split
        next hhigh => exact ⟨nofun, fun h => absurd hhigh (Int.not_lt.2 (hnext h).2)⟩
        next hhigh =>
          rw [ih ⟨Int.not_lt.1 hlow, Int.not_lt.1 hhigh⟩]
          simp [hc]
    · rw [if_neg hc]
      exact ⟨nofun, fun h => absurd h.1.1 hc⟩

/-! ## Numerals -/

/-- One or more decimal digits. -/
def IsDigits (cs : List Char) : Prop := cs ≠ [] ∧ ∀ c ∈ cs, c.isDigit = true

/-- The numerals of a number: digits alone or behind a sign. -/
inductive Spells : List Char → Int → Prop
  | unsigned {ds : List Char} (digits : IsDigits ds) : Spells ds (Nat.ofDigitChars 10 ds 0)
  | positive {ds : List Char} (digits : IsDigits ds) :
      Spells ('+' :: ds) (Nat.ofDigitChars 10 ds 0)
  | negative {ds : List Char} (digits : IsDigits ds) :
      Spells ('-' :: ds) (-(Nat.ofDigitChars 10 ds 0 : Int))

/-- No digit is a sign. -/
theorem readWhole_of_isDigits {ds : List Char} (h : IsDigits ds) :
    readWhole ds = readDigits false 0 ds ∧ readWhole ('+' :: ds) = readDigits false 0 ds ∧
      readWhole ('-' :: ds) = readDigits true 0 ds := by
  obtain ⟨hne, hdigits⟩ := h
  cases ds with
  | nil => exact absurd rfl hne
  | cons d ds =>
    have hd := hdigits d List.mem_cons_self
    obtain ⟨hplus, hminus⟩ : d ≠ '+' ∧ d ≠ '-' := by
      constructor <;> rintro rfl <;> cases hd
    refine ⟨?_, rfl, rfl⟩
    unfold readWhole
    split <;> simp_all

theorem readDigits_zero_eq_ok_iff {negative : Bool} {ds : List Char} {n : Int} :
    readDigits negative 0 ds = .ok n ↔ (∀ c ∈ ds, c.isDigit = true) ∧
      n = withSign negative (Nat.ofDigitChars 10 ds 0) ∧ IsWhole n := by
  have hzero : withSign negative 0 = 0 := by cases negative <;> rfl
  have hwhole : IsWhole (withSign negative 0) := by
    rw [hzero]
    exact ⟨by decide, by decide⟩
  have hread : readDigits negative (withSign negative 0) ds = .ok n ↔ _ :=
    readDigits_eq_ok_iff hwhole
  rwa [hzero] at hread

/-- Exactly the numerals of numbers of 64 bits are read, each as its number. -/
theorem readWhole_eq_ok_iff {cs : List Char} {n : Int} :
    readWhole cs = .ok n ↔ Spells cs n ∧ IsWhole n := by
  constructor
  · intro h
    unfold readWhole at h
    split at h
    next => cases h
    next => cases h
    next => cases h
    next ds hne =>
      obtain ⟨hdigits, rfl, hn⟩ := readDigits_zero_eq_ok_iff.1 h
      exact ⟨.positive ⟨hne, hdigits⟩, hn⟩
    next ds hne =>
      obtain ⟨hdigits, rfl, hn⟩ := readDigits_zero_eq_ok_iff.1 h
      exact ⟨.negative ⟨hne, hdigits⟩, hn⟩
    next hne _ _ _ _ =>
      obtain ⟨hdigits, rfl, hn⟩ := readDigits_zero_eq_ok_iff.1 h
      exact ⟨.unsigned ⟨hne, hdigits⟩, hn⟩
  · rintro ⟨hspells, hn⟩
    cases hspells with
    | unsigned digits =>
      rw [(readWhole_of_isDigits digits).1]
      exact readDigits_zero_eq_ok_iff.2 ⟨digits.2, rfl, hn⟩
    | positive digits =>
      rw [(readWhole_of_isDigits digits).2.1]
      exact readDigits_zero_eq_ok_iff.2 ⟨digits.2, rfl, hn⟩
    | negative digits =>
      rw [(readWhole_of_isDigits digits).2.2]
      exact readDigits_zero_eq_ok_iff.2 ⟨digits.2, rfl, hn⟩

theorem isDigits_toDigits (n : Nat) : IsDigits (Nat.toDigits 10 n) :=
  ⟨Nat.toDigits_ne_nil, fun _ h => Nat.isDigit_of_mem_toDigits (by decide) (by decide) h⟩

/-- The text of a number is a numeral of it. -/
theorem spells_toString (n : Int) : Spells (toString n).toList n := by
  have hnat (m : Nat) : Nat.ofDigitChars 10 (Nat.toDigits 10 m) 0 = m :=
    Nat.ofDigitChars_ten_toDigits
  rw [Int.toString_eq_repr]
  cases n with
  | ofNat m =>
    have h := Spells.unsigned (isDigits_toDigits m)
    rw [hnat] at h
    rwa [Int.repr, Nat.toList_repr]
  | negSucc m =>
    have h := Spells.negative (isDigits_toDigits (m + 1))
    rw [hnat] at h
    rw [Int.repr, String.toList_append, Nat.toList_repr]
    exact h

/-- A numeral contains no blank. -/
theorem Spells.isBlank {cs : List Char} {n : Int} (h : Spells cs n) :
    ∀ c ∈ cs, Text.isBlank c = false := by
  have hdigit {c : Char} (hc : c.isDigit = true) : Text.isBlank c = false := by
    obtain ⟨hlow, hhigh⟩ : 48 ≤ c.toNat ∧ c.toNat ≤ 57 := Char.isDigit_iff_toNat.1 hc
    simp [Text.isBlank, Text.blankRanges]
    omega
  have hdigits {ds : List Char} (hds : IsDigits ds) : ∀ c ∈ ds, Text.isBlank c = false :=
    fun c hc => hdigit (hds.2 c hc)
  cases h with
  | unsigned digits => exact hdigits digits
  | positive digits | negative digits => exact List.forall_mem_cons.2 ⟨by decide, hdigits digits⟩

/-- What is between the blanks is a numeral exactly if the text is a numeral with blanks around
it. -/
theorem spells_trimChars_iff {cs : List Char} {n : Int} :
    Spells (Text.trimChars cs) n ↔ ∃ content, Text.Padded content cs ∧ Spells content n := by
  constructor
  · exact fun h => ⟨_, Text.padded_trimChars cs, h⟩
  · rintro ⟨content, hpadded, h⟩
    rwa [hpadded.trimChars_eq h.isBlank]

end Number
end MarkerIndex
