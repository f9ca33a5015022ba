/-
The slots of a table that was read. A table is read from a count, at least one, and from constants
that fill the slots behind the slot zero, and from nothing else; so its usable slots hold these
constants in their order, all others stand behind a wide constant, and the bytes that are taken are
those of the count and of the constants.

The loop runs over slots. One turn takes the bytes of one constant and fills its one or two slots,
and the induction is the one of the loop.
-/
import MarkerIndex.Proofs.Bytes.Parsing
import MarkerIndex.Proofs.ClassFile.ConstantTable

namespace MarkerIndex.ClassFile

namespace ConstantTable

open Reader

variable {bytes rest : Bytes} {T : ConstantTable}

/-! ## One constant -/

section Constants

variable {tag : UInt8}

/-- The reader takes from the bytes, behind the byte `tag`, a spelling of what it answers. -/
def TakesSpelling (tag : UInt8) (r : Reader Constant) : Prop := ∀ bytes c rest,
  r bytes = (.ok c, rest) → ∃ code, bytes = code ++ rest ∧ c.Spelled (tag :: code)

theorem takesSpelling_of_parses {r : Reader Constant} {G : Constant → Bytes → Prop}
    (hr : r.Parses G) (hG : ∀ c code, G c code → c.Spelled (tag :: code)) :
    TakesSpelling tag r := by
  intro bytes c rest h
  obtain ⟨code, hbytes, hcode⟩ := (hr _ _ _).1 h
  exact ⟨code, hbytes, hG c code hcode⟩

/-- A constant of one part is read from the bytes of the part. -/
theorem takesSpelling_part {α : Type} {part : Reader α} {code : α → Bytes} {f : α → Constant}
    (hpart : part.Parses fun a bs => bs = code a) (hf : ∀ a, (f a).Spelled (tag :: code a)) :
    TakesSpelling tag (do return f (← part)) := by
  refine takesSpelling_of_parses (hpart.bind_still fun a => parses_pure (f a)) ?_
  rintro _ _ ⟨a, rfl, rfl⟩
  exact hf a

/-- And a constant of two parts from the bytes of both. -/
theorem takesSpelling_parts {α β : Type} {first : Reader α} {second : Reader β} {code : α → Bytes}
    {code' : β → Bytes} {f : α → β → Constant} (hfirst : first.Parses fun a bs => bs = code a)
    (hsecond : second.Parses fun b bs => bs = code' b)
    (hf : ∀ a b, (f a b).Spelled (tag :: (code a ++ code' b))) :
    TakesSpelling tag (do
      let a ← first
      let b ← second
      return f a b) := by
  refine takesSpelling_of_parses
    (hfirst.bind fun a => hsecond.bind_still fun b => parses_pure (f a b)) ?_
  rintro _ _ ⟨a, _, _, rfl, rfl, b, rfl, rfl⟩
  exact hf a b

theorem takesSpelling_text : TakesSpelling 1 (do
    let n ← Reader.u16
    return .utf8 (← Reader.text n.toNat)) := by
  refine takesSpelling_of_parses (parses_u16.bind fun n =>
    (parses_text n.toNat).bind_still fun s => parses_pure (Constant.utf8 s)) ?_
  rintro _ _ ⟨n, _, code, rfl, rfl, s, ⟨hn, hcode⟩, rfl⟩
  exact .text hn.symm hcode

theorem takesSpelling_readBody (index : Nat) : TakesSpelling tag (readBody tag index) := by
  have htag : UInt8.ofNat tag.toNat = tag := UInt8.ofNat_toNat
  unfold readBody
  split
  case h_18 => rintro _ _ _ ⟨⟩
  -- In each other case the number of the tag gives the tag.
  all_goals
    rename_i hn
    rw [hn] at htag
    subst htag
  · exact takesSpelling_text
  · exact takesSpelling_part parses_i32 fun _ => .other nofun
  · exact takesSpelling_part parses_u32 fun _ => .other nofun
  · exact takesSpelling_part parses_i64 fun _ => .other nofun
  · exact takesSpelling_part parses_u64 fun _ => .other nofun
  · exact takesSpelling_part parses_u16 fun _ => .other nofun
  · exact takesSpelling_part parses_u16 fun _ => .other nofun
  · exact takesSpelling_parts parses_u16 parses_u16 fun _ _ => .other nofun
  · exact takesSpelling_parts parses_u16 parses_u16 fun _ _ => .other nofun
  · exact takesSpelling_parts parses_u16 parses_u16 fun _ _ => .other nofun
  · exact takesSpelling_parts parses_u16 parses_u16 fun _ _ => .other nofun
  · exact takesSpelling_parts parses_u8 parses_u16 fun _ _ => .other nofun
  · exact takesSpelling_part parses_u16 fun _ => .other nofun
  · exact takesSpelling_parts parses_u16 parses_u16 fun _ _ => .other nofun
  · exact takesSpelling_parts parses_u16 parses_u16 fun _ _ => .other nofun
  · exact takesSpelling_part parses_u16 fun _ => .other nofun
  · exact takesSpelling_part parses_u16 fun _ => .other nofun

/-- What is taken for a constant spells it. -/
theorem spelled_of_readConstant {index : Nat} {c : Constant}
    (h : readConstant index bytes = (.ok c, rest)) :
    ∃ code, bytes = code ++ rest ∧ c.Spelled code := by
  obtain ⟨tag, mid, htag, hbody⟩ := bind_ok.1 h
  obtain ⟨_, rfl, rfl⟩ := (parses_u8 _ _ _).1 htag
  obtain ⟨code, rfl, hcode⟩ := takesSpelling_readBody index _ _ _ hbody
  exact ⟨tag :: code, rfl, hcode⟩

end Constants

/-! ## All constants -/

/-- The slots that are filled are those of the constants in front of what remains. -/
theorem spelled_of_readSlots {n : Nat} {slots : Array (Option Constant)}
    (h : readSlots n slots bytes = (.ok T, rest)) : ∃ cs codes,
      List.Forall₂ Constant.Spelled cs codes ∧ bytes = codes.flatten ++ rest ∧
      (layout cs).length = n ∧ T = ⟨slots ++ (layout cs).toArray⟩ := by
  fun_induction readSlots n slots generalizing bytes with
  | case1 slots =>
    cases h
    exact ⟨[], [], .nil, rfl, rfl, by simp [layout]⟩
  | case2 n slots wide narrow =>
    obtain ⟨c, mid, hc, hgoes⟩ := bind_ok.1 h
    obtain ⟨code, rfl, hcode⟩ := spelled_of_readConstant hc
    cases hw : c.isWide with
    | false =>
      have hslots : c.slots = 1 := by simp [Constant.slots, hw]
      rw [if_neg (by simp [hw])] at hgoes
      obtain ⟨cs, codes, hcodes, rfl, hn, rfl⟩ := narrow c hgoes
      refine ⟨c :: cs, code :: codes, .cons hcode hcodes, by simp, ?_, ?_⟩
      · rw [length_layout_cons, hslots, hn, Nat.add_comm]
      · simp [layout, hw]
    | true =>
      have hslots : c.slots = 2 := by simp [Constant.slots, hw]
      rw [if_pos hw] at hgoes
      cases n with
      | zero => cases hgoes
      | succ n =>
        obtain ⟨cs, codes, hcodes, rfl, hn, rfl⟩ := wide c hgoes
        refine ⟨c :: cs, code :: codes, .cons hcode hcodes, by simp, ?_, ?_⟩
        · rw [length_layout_cons, hslots, hn, Nat.add_comm]
        · simp [layout, hw]

/-- Exactly the bytes of a count and of constants that fill the slots behind the slot zero are read
as a table. -/
theorem read_eq_ok_iff : read bytes = (.ok T, rest) ↔ ∃ (count : UInt16) (cs : List Constant)
      (codes : List Bytes), List.Forall₂ Constant.Spelled cs codes ∧
      bytes = BigEndian.u16 count ++ codes.flatten ++ rest ∧
      count.toNat = 1 + (cs.map Constant.slots).sum ∧ T = ofConstants cs := by
  constructor
  · intro h
    obtain ⟨count, mid, hcount, hslots⟩ := bind_ok.1 h
    obtain ⟨_, rfl, rfl⟩ := (parses_u16 _ _ _).1 hcount
    rcases hn : count.toNat with _ | n
    · rw [hn] at hslots
      cases hslots
    · rw [hn] at hslots
      obtain ⟨cs, codes, hcodes, rfl, hlength, rfl⟩ := spelled_of_readSlots hslots
      refine ⟨count, cs, codes, hcodes, by simp, ?_, by simp [ofConstants]⟩
      rw [← length_layout, hn, hlength, Nat.add_comm]
  · rintro ⟨count, cs, codes, hcodes, rfl, hcount, rfl⟩
    rw [← length_layout, Nat.add_comm] at hcount
    exact reads_spelled_table hcodes hcount rest

/-- A wide constant in the last slot is refused, whatever is behind it. -/
theorem read_wide_last {count : UInt16} {cs : List Constant} {codes : List Bytes} {c : Constant}
    {code : Bytes} (hcodes : List.Forall₂ Constant.Spelled cs codes) (hcode : c.Spelled code)
    (hw : c.isWide = true) (hcount : count.toNat = 1 + (cs.map Constant.slots).sum + 1)
    (rest : Bytes) : read (BigEndian.u16 count ++ codes.flatten ++ code ++ rest) =
      (.error (.malformed .wideInLastSlot), rest) := by
  rw [← length_layout, Nat.add_comm 1] at hcount
  rw [List.append_assoc, List.append_assoc, read, (reads_u16 count).run_bind]
  rw [hcount]
  refine (readSlots_spelled hcodes 1 #[none] (code ++ rest)).trans ?_
  rw [readSlots, (reads_constant hcode _).run_bind, if_pos hw]
  rfl

/-! ## The table -/

/-- The constants of the table, in the order of their slots. -/
def constants (T : ConstantTable) : List Constant := T.slots.toList.filterMap id

/-- The slot is kept free: it is the slot zero, or the one behind a wide constant. -/
def KeptFree (T : ConstantTable) (i : Nat) : Prop :=
  i = 0 ∨ ∃ c : Constant, T.slots[i - 1]? = some (some c) ∧ c.isWide = true

/-- Of the slots of the table exactly those are unused that have to be. A look-up answers exactly at
the others, and a look-up for a kind exactly where a constant of this kind is. -/
structure WellFormed (T : ConstantTable) : Prop where
  unused_iff : ∀ i < T.size, T.slots[i]? = some none ↔ T.KeptFree i
  get_isOk_iff : ∀ i, (∃ c, T.get i = .ok c) ↔ i.toNat < T.size ∧ ¬ T.KeptFree i.toNat
  get_iff : ∀ i c, T.get i = .ok c ↔ T.slots[i.toNat]? = some (some c)
  utf8_iff : ∀ i s, T.utf8 i = .ok s ↔ T.get i = .ok (.utf8 s)
  integer_iff : ∀ i n, T.integer i = .ok n ↔ T.get i = .ok (.integer n)
  long_iff : ∀ i n, T.long i = .ok n ↔ T.get i = .ok (.long n)
  float_iff : ∀ i bits, T.float i = .ok bits ↔ T.get i = .ok (.float bits)
  double_iff : ∀ i bits, T.double i = .ok bits ↔ T.get i = .ok (.double bits)
  className_iff : ∀ i name, T.className i = .ok name ↔
    ∃ k s, T.get i = .ok (.class k) ∧ T.get k = .ok (.utf8 s) ∧ name = Descriptor.ofInternal s

theorem constants_ofConstants (cs : List Constant) : (ofConstants cs).constants = cs :=
  filterMap_layout cs

theorem size_ofConstants (cs : List Constant) :
    (ofConstants cs).size = 1 + (cs.map Constant.slots).sum := by
  rw [← length_layout, Nat.add_comm]
  rfl

theorem unused_ofConstants_iff {cs : List Constant} {i : Nat} :
    (ofConstants cs).slots[i]? = some none ↔ (ofConstants cs).KeptFree i := by
  cases i with
  | zero => simp [ofConstants, KeptFree]
  | succ n =>
    simp only [ofConstants, KeptFree, List.getElem?_toArray, List.getElem?_cons_succ,
      Nat.add_eq_zero_iff, Nat.one_ne_zero, and_false, false_or, Nat.add_sub_cancel]
    cases n with
    | zero => simpa using layout_head cs
    | succ n => exact layout_unused_iff

theorem wellFormed_ofConstants (cs : List Constant) : (ofConstants cs).WellFormed where
  unused_iff _ _ := unused_ofConstants_iff
  get_isOk_iff i := by
    simp only [get_eq_ok_iff, ← unused_ofConstants_iff]
    rcases hslot : (ofConstants cs).slots[i.toNat]? with _ | _ | c
    · simpa [ConstantTable.size] using Array.getElem?_eq_none_iff.1 hslot
    · simp
    · simpa [ConstantTable.size] using (Array.getElem?_eq_some_iff.1 hslot).1
  get_iff _ _ := get_eq_ok_iff
  utf8_iff _ _ := utf8_eq_ok_iff
  integer_iff _ _ := integer_eq_ok_iff
  long_iff _ _ := long_eq_ok_iff
  float_iff _ _ := float_eq_ok_iff
  double_iff _ _ := double_eq_ok_iff
  className_iff _ _ := className_eq_ok_iff

/-- What is read as a table starts with the number of its slots, at least one, and goes on with the
bytes of its constants and no others; and the table is well formed. A wide constant that starts in
the last slot, behind constants that fill the slots in front of it, is always refused. -/
theorem read_wellFormed :
    (∀ (bytes rest : Bytes) (T : ConstantTable), read bytes = (.ok T, rest) →
      ∃ (count : UInt16) (codes : List Bytes),
        bytes = BigEndian.u16 count ++ codes.flatten ++ rest ∧
        1 ≤ count.toNat ∧ T.size = count.toNat ∧
        List.Forall₂ Constant.Spelled T.constants codes ∧
        bytes.length = 2 + (codes.map List.length).sum + rest.length ∧ T.WellFormed) ∧
    ∀ (count : UInt16) (cs : List Constant) (codes : List Bytes) (c : Constant) (code rest : Bytes),
      List.Forall₂ Constant.Spelled cs codes → c.Spelled code → c.isWide = true →
      count.toNat = 1 + (cs.map Constant.slots).sum + 1 →
      (read (BigEndian.u16 count ++ codes.flatten ++ code ++ rest)).1 =
        .error (.malformed .wideInLastSlot) := by
  constructor
  · intro bytes rest T h
    obtain ⟨count, cs, codes, hcodes, rfl, hcount, rfl⟩ := read_eq_ok_iff.1 h
    refine ⟨count, codes, rfl, by omega, (size_ofConstants cs).trans hcount.symm, ?_, ?_,
      wellFormed_ofConstants cs⟩
    · rwa [constants_ofConstants]
    · rw [List.length_append, List.length_append, BigEndian.length_u16, List.length_flatten]
  · intro count cs codes c code rest hcodes hcode hw hcount
    rw [read_wide_last hcodes hcode hw hcount]

/-- A long constant, a text whose zero is not written as it should be, and an index. -/
def zeroText : Bytes := [0, 5, 5, 0, 0, 0, 0, 0, 0, 0, 7, 1, 0, 1, 0, 7, 0, 3]

/-- A double constant in the second of two slots. -/
def doubleLast : Bytes := [0, 3, 7, 0, 3, 6, 0, 0, 0, 0, 0, 0, 0, 0]

theorem read_wellFormed_zeroText :
    (∃ T, read (zeroText ++ [9]) = (.ok T, [9]) ∧ T.constants = [.long 7, .utf8 "\x00", .class 3] ∧
      T.WellFormed) ∧
    (read (doubleLast ++ [9])).1 = .error (.malformed .wideInLastSlot) := by
  have hclass : (Constant.class 3).Spelled [7, 0, 3] := .other nofun
  have hspelled : List.Forall₂ Constant.Spelled [.long 7, .utf8 "\x00", .class 3]
      [[5, 0, 0, 0, 0, 0, 0, 0, 7], [1, 0, 1, 0], [7, 0, 3]] := by
    refine .cons (.other nofun) (.cons ?_ (.cons hclass .nil))
    exact .text (n := 1) rfl rfl
  constructor
  · have hread : read (zeroText ++ [9]) =
        (.ok (ofConstants [.long 7, .utf8 "\x00", .class 3]), [9]) :=
      read_eq_ok_iff.2 ⟨5, _, _, hspelled, rfl, rfl, rfl⟩
    obtain ⟨_, _, _, _, _, _, _, hwell⟩ := read_wellFormed.1 _ _ _ hread
    exact ⟨_, hread, constants_ofConstants _, hwell⟩
  · exact read_wellFormed.2 3 [.class 3] [[7, 0, 3]] (.double 0) [6, 0, 0, 0, 0, 0, 0, 0, 0] [9]
      (.cons hclass .nil) (.other nofun) rfl rfl

end ConstantTable

end MarkerIndex.ClassFile
