/-
The table of constants read back from its bytes: the encoding of a constant reads as that constant,
and the encodings of constants one after another, behind the count of their slots, read as the table
in which each constant stands at its slot and a wide one is followed by an unused slot.
-/
import MarkerIndex.ClassFile.TableBuilder
import MarkerIndex.ClassFile.ConstantTable
import MarkerIndex.Proofs.Bytes.Reads
import MarkerIndex.Proofs.ClassFile.Descriptors
import Mathlib.Data.List.Forall2

namespace MarkerIndex.ClassFile

open Reader

/-! ## One constant -/

/-- The length of a text can be written in front of it. -/
def Constant.Fits : Constant → Prop
  | .utf8 s => (Text.ModifiedUtf8.encode s).length < 65536
  | _ => True

/-- The bytes spell the constant. A text is spelled by all bytes that decode to it, with their number
in front; of any other constant there is one spelling. -/
inductive Constant.Spelled : Constant → Bytes → Prop
  | text {s : String} {n : UInt16} {code : Bytes} (hn : n.toNat = code.length)
      (h : Text.ModifiedUtf8.decode code = .ok s) :
      Spelled (.utf8 s) ([1] ++ (BigEndian.u16 n ++ code))
  | other {c : Constant} (h : ∀ s, c ≠ .utf8 s) : Spelled c c.encode

/-- What is written for a constant spells it. -/
theorem Constant.Fits.spelled {c : Constant} (h : c.Fits) : c.Spelled c.encode := by
  cases c with
  | utf8 s =>
    have hn : (UInt16.ofNat (Text.ModifiedUtf8.encode s).length).toNat =
        (Text.ModifiedUtf8.encode s).length := UInt16.toNat_ofNat_of_lt' h
    have := Constant.Spelled.text hn (Text.ModifiedUtf8.decode_encode s)
    rwa [BigEndian.u16, hn] at this
  | _ => exact .other nofun

namespace ConstantTable

theorem reads_pair {a b : UInt16} {f : UInt16 → UInt16 → Constant} :
    Reads (do
      let x ← Reader.u16
      let y ← Reader.u16
      return f x y) (BigEndian.u16 a ++ BigEndian.u16 b) (f a b) :=
  (reads_u16 a).bind ((reads_u16 b).map (f a))

theorem reads_body {c : Constant} (h : ∀ s, c ≠ .utf8 s) (index : Nat) :
    Reads (readBody c.tag index) c.body c := by
  cases c with
  | utf8 s => exact absurd rfl (h s)
  | integer n => exact (reads_i32 n).map Constant.integer
  | float bits => exact (reads_u32 bits).map Constant.float
  | long n => exact (reads_i64 n).map Constant.long
  | double bits => exact (reads_u64 bits).map Constant.double
  | «class» i => exact (reads_u16 i).map Constant.class
  | string i => exact (reads_u16 i).map Constant.string
  | reference kind a b => cases kind <;> exact reads_pair
  | nameAndType a b => exact reads_pair
  | methodHandle kind i => exact (reads_u8 kind).bind ((reads_u16 i).map (Constant.methodHandle kind))
  | methodType i => exact (reads_u16 i).map Constant.methodType
  | dynamic kind a b => cases kind <;> exact reads_pair
  | module i => exact (reads_u16 i).map Constant.module
  | package i => exact (reads_u16 i).map Constant.package

/-- What spells a constant reads as the constant. -/
theorem reads_constant {c : Constant} {code : Bytes} (h : c.Spelled code) (index : Nat) :
    Reads (readConstant index) code c := by
  cases h with
  | @text s n code hn hdecode =>
    refine (reads_u8 1).bind ((reads_u16 n).bind ?_)
    rw [hn]
    exact (reads_decoded hdecode).map Constant.utf8
  | other h => exact (reads_u8 c.tag).bind (reads_body h index)

/-! ## All constants -/

/-- The slots of constants one after another: a wide one leaves the next slot unused. -/
def layout (cs : List Constant) : List (Option Constant) :=
  cs.flatMap fun c => if c.isWide then [some c, none] else [some c]

theorem length_layout_cons (c : Constant) (cs : List Constant) :
    (layout (c :: cs)).length = c.slots + (layout cs).length := by
  simp only [layout, List.flatMap_cons, List.length_append, Constant.slots]
  split <;> rfl

theorem layout_append (cs ds : List Constant) : layout (cs ++ ds) = layout cs ++ layout ds := by
  simp [layout]

theorem layout_singleton (c : Constant) :
    layout [c] = if c.isWide then [some c, none] else [some c] := by
  simp [layout]

/-- Each constant occupies its own slots. -/
theorem length_layout (cs : List Constant) : (layout cs).length = (cs.map Constant.slots).sum := by
  induction cs with
  | nil => rfl
  | cons c cs ih => rw [length_layout_cons, ih, List.map_cons, List.sum_cons]

theorem filterMap_layout (cs : List Constant) : (layout cs).filterMap id = cs := by
  induction cs with
  | nil => rfl
  | cons c cs ih =>
    have hc : (layout [c]).filterMap id = [c] := by
      rw [layout_singleton]
      split <;> rfl
    rw [← List.singleton_append, layout_append, List.filterMap_append, hc, ih]

/-- Constants start in a slot that is used. -/
theorem layout_head (cs : List Constant) : (layout cs)[0]? ≠ some none := by
  cases cs with
  | nil => simp [layout]
  | cons c cs =>
    rw [← List.singleton_append, layout_append, layout_singleton]
    split <;> simp

/-- A later slot is unused exactly if a wide constant is in front of it. -/
theorem layout_unused_iff {cs : List Constant} {n : Nat} : (layout cs)[n + 1]? = some none ↔
    ∃ c : Constant, (layout cs)[n]? = some (some c) ∧ c.isWide = true := by
  induction cs generalizing n with
  | nil => simp [layout]
  | cons d cs ih =>
    rw [← List.singleton_append, layout_append, layout_singleton]
    cases hd : d.isWide with
    | false =>
      cases n with
      | zero => simpa [hd] using layout_head cs
      | succ n => simpa using ih
    | true =>
      rcases n with _ | _ | n
      · simp [hd]
      · simpa using layout_head cs
      · simpa using ih

/-- Constants are filled into their slots, and the slots that remain are filled from what is behind
the constants. -/
theorem readSlots_spelled {cs : List Constant} {codes : List Bytes}
    (h : List.Forall₂ Constant.Spelled cs codes) (more : Nat) (slots : Array (Option Constant))
    (rest : Bytes) : readSlots ((layout cs).length + more) slots (codes.flatten ++ rest) =
      readSlots more (slots ++ (layout cs).toArray) rest := by
  induction h generalizing slots with
  | nil => simp [layout]
  | @cons c code cs codes hc _ ih =>
    have hc := reads_constant hc slots.size
    rw [length_layout_cons, List.flatten_cons, List.append_assoc]
    unfold Constant.slots
    -- One turn of the loop reads a constant, and goes on behind the unused slot of a wide one.
    cases hw : c.isWide with
    | false =>
      have hturns : (if false = true then 2 else 1) + (layout cs).length + more =
          (layout cs).length + more + 1 := by simp; omega
      rw [hturns, readSlots, hc.run_bind, if_neg (by simp [hw]), ih]
      simp [layout, hw]
    | true =>
      have hturns : (if true = true then 2 else 1) + (layout cs).length + more =
          (layout cs).length + more + 2 := by simp; omega
      rw [hturns, readSlots, hc.run_bind, if_pos hw]
      refine (ih ((slots.push (some c)).push none)).trans ?_
      simp [layout, hw]

theorem reads_slots {cs : List Constant} {codes : List Bytes}
    (h : List.Forall₂ Constant.Spelled cs codes) (slots : Array (Option Constant)) :
    Reads (readSlots (layout cs).length slots) codes.flatten ⟨slots ++ (layout cs).toArray⟩ :=
  fun rest => readSlots_spelled h 0 slots rest

/-- The slot zero and the slots of the constants. -/
def ofConstants (cs : List Constant) : ConstantTable := ⟨(none :: layout cs).toArray⟩

/-- A count of slots and constants that fill them read as the table of the constants. -/
theorem reads_spelled_table {cs : List Constant} {codes : List Bytes}
    (h : List.Forall₂ Constant.Spelled cs codes) {count : UInt16}
    (hcount : count.toNat = (layout cs).length + 1) :
    Reads read (BigEndian.u16 count ++ codes.flatten) (ofConstants cs) := by
  refine (reads_u16 count).bind ?_
  rw [hcount]
  have := reads_slots h #[none]
  simpa [ofConstants] using this

/-- The count of slots and the constants read as their table. -/
theorem reads_table {cs : List Constant} (h : ∀ c ∈ cs, c.Fits)
    (hn : (layout cs).length + 1 < 65536) :
    Reads read (BigEndian.encode 2 ((layout cs).length + 1) ++ cs.flatMap Constant.encode)
      (ofConstants cs) := by
  have hspelled : List.Forall₂ Constant.Spelled cs (cs.map Constant.encode) :=
    List.forall₂_map_right_iff.2 (List.forall₂_same.2 fun c hc => (h c hc).spelled)
  have hcount := UInt16.toNat_ofNat_of_lt' hn
  have := reads_spelled_table hspelled hcount
  rwa [BigEndian.u16, hcount, ← List.flatMap_def] at this

/-! ## Looking up -/

variable {t : ConstantTable} {i : UInt16}

/-- A look-up answers with the constant of the slot. -/
theorem get_eq_ok_iff {c : Constant} : t.get i = .ok c ↔ t.slots[i.toNat]? = some (some c) := by
  unfold get
  split
  next d hd => rw [hd, Except.ok.injEq, Option.some.injEq, Option.some.injEq]
  next hnone =>
    constructor
    · rintro ⟨⟩
    · intro h
      exact absurd h (hnone c)

theorem get_of_slot {c : Constant} (h : t.slots.toList[i.toNat]? = some (some c)) :
    t.get i = .ok c :=
  get_eq_ok_iff.2 (Array.getElem?_toList ▸ h)

/-- A look-up for one kind of constant answers if a constant of this kind is there. -/
theorem answers_iff {α : Type} {pick : Constant → Except Fault α} {constant : α → Constant}
    (hpick : ∀ c a, pick c = .ok a ↔ c = constant a) {a : α} :
    (t.get i >>= pick) = .ok a ↔ t.get i = .ok (constant a) := by
  cases t.get i with
  | error f =>
    constructor
    · rintro ⟨⟩
    · rintro ⟨⟩
  | ok c =>
    rw [Except.ok.injEq]
    exact hpick c a

theorem utf8_eq_ok_iff {s : String} : t.utf8 i = .ok s ↔ t.get i = .ok (.utf8 s) :=
  answers_iff fun c a => by cases c <;> simp [wrongKind, pure, Except.pure]

theorem integer_eq_ok_iff {n : Int32} : t.integer i = .ok n ↔ t.get i = .ok (.integer n) :=
  answers_iff fun c a => by cases c <;> simp [wrongKind, pure, Except.pure]

theorem long_eq_ok_iff {n : Int64} : t.long i = .ok n ↔ t.get i = .ok (.long n) :=
  answers_iff fun c a => by cases c <;> simp [wrongKind, pure, Except.pure]

theorem float_eq_ok_iff {bits : UInt32} : t.float i = .ok bits ↔ t.get i = .ok (.float bits) :=
  answers_iff fun c a => by cases c <;> simp [wrongKind, pure, Except.pure]

theorem double_eq_ok_iff {bits : UInt64} : t.double i = .ok bits ↔ t.get i = .ok (.double bits) :=
  answers_iff fun c a => by cases c <;> simp [wrongKind, pure, Except.pure]

theorem className_of_class {k : UInt16} (h : t.get i = .ok (.class k)) :
    t.className i = (t.utf8 k).map Descriptor.ofInternal := by
  unfold className
  rw [h]
  rfl

/-- A look-up for a class follows the index in the slot to the name. -/
theorem className_eq_ok_iff {name : String} : t.className i = .ok name ↔
    ∃ k s, t.get i = .ok (.class k) ∧ t.get k = .ok (.utf8 s) ∧ name = Descriptor.ofInternal s := by
  constructor
  · intro h
    obtain ⟨k, hk⟩ : ∃ k, t.get i = .ok (.class k) := by
      unfold className at h
      cases hget : t.get i with
      | error f => rw [hget] at h; cases h
      | ok c =>
        rw [hget] at h
        cases c with
        | «class» k => exact ⟨k, rfl⟩
        | _ => cases h
    rw [className_of_class hk] at h
    cases hname : t.utf8 k with
    | error f => rw [hname] at h; cases h
    | ok s =>
      rw [hname] at h
      cases h
      exact ⟨k, s, hk, utf8_eq_ok_iff.1 hname, rfl⟩
  · rintro ⟨k, s, hk, hname, rfl⟩
    rw [className_of_class hk, utf8_eq_ok_iff.2 hname]
    rfl

/-- A name without slashes is found again under its internal name. -/
theorem className_of_internal {name : String} (hn : '/' ∉ name.toList) {k : UInt16}
    (h : t.get i = .ok (.class k)) (hk : t.utf8 k = .ok (Descriptor.toInternal name)) :
    t.className i = .ok name :=
  className_eq_ok_iff.2
    ⟨k, _, h, utf8_eq_ok_iff.1 hk, (Descriptor.ofInternal_toInternal hn).symm⟩

/-- The slot zero names no class. -/
theorem className_zero {cs : List Constant} {s : String} : (ofConstants cs).className 0 ≠ .ok s := by
  intro h; cases h

end ConstantTable

end MarkerIndex.ClassFile
