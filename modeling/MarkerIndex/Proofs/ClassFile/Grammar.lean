/-
The grammar of markers. It gives the bytes of every part of a marker over a table of constants: a
type is the index of a descriptor, a count stands in front of properties and of elements, and a byte
announces what an element is. Scalars are read from exactly the bytes that the grammar gives.
-/
import MarkerIndex.Proofs.Bytes.Parsing
import MarkerIndex.Proofs.ClassFile.Scalars
import MarkerIndex.Proofs.ClassFile.Trees

namespace MarkerIndex.ClassFile

open Reader (parses_pure parses_ofExcept parses_u8 parses_u16)

/-! ## The grammar -/

/-- The byte that announces an element. -/
def ElementTag.byte (tag : ElementTag) : UInt8 :=
  .ofNat <| Char.toNat <| match tag with
    | .scalar .bool => 'Z'
    | .scalar .char => 'C'
    | .scalar .byte => 'B'
    | .scalar .short => 'S'
    | .scalar .int => 'I'
    | .scalar .long => 'J'
    | .scalar .float => 'F'
    | .scalar .double => 'D'
    | .scalar .string => 's'
    | .scalar .enum => 'e'
    | .scalar .class => 'c'
    | .marker => '@'
    | .array => '['

section Grammar

variable (t : ConstantTable)

/-- The index is that of a descriptor of the type. -/
def NamesType (i : UInt16) (type : String) : Prop :=
  ∃ descriptor, t.get i = .ok (.utf8 descriptor) ∧ Descriptor.toName descriptor = .ok type

/-- The bytes of a scalar behind the byte that announces its kind. A character is a unit of 16 bits;
a surrogate is announced as one, too, and is a number. -/
inductive ScalarCode : Kind → Scalar → Bytes → Prop
  | bool {i : UInt16} {n : Int32} (h : t.get i = .ok (.integer n)) :
      ScalarCode .bool (.bool (n != 0)) (BigEndian.u16 i)
  | char {i : UInt16} {n : Int32} {c : Char} (h : t.get i = .ok (.integer n))
      (hc : n.toInt = c.toNat) (hunit : c.toNat < 0x10000) :
      ScalarCode .char (.char c) (BigEndian.u16 i)
  | surrogate {i : UInt16} {n : Int32} (h : t.get i = .ok (.integer n))
      (hn : 0xD800 ≤ n.toInt ∧ n.toInt < 0xE000) : ScalarCode .char (.int n) (BigEndian.u16 i)
  | byte {i : UInt16} {n : Int32} {b : Int8} (h : t.get i = .ok (.integer n))
      (hb : n.toInt = b.toInt) : ScalarCode .byte (.byte b) (BigEndian.u16 i)
  | short {i : UInt16} {n : Int32} {m : Int16} (h : t.get i = .ok (.integer n))
      (hm : n.toInt = m.toInt) : ScalarCode .short (.short m) (BigEndian.u16 i)
  | int {i : UInt16} {n : Int32} (h : t.get i = .ok (.integer n)) :
      ScalarCode .int (.int n) (BigEndian.u16 i)
  | long {i : UInt16} {n : Int64} (h : t.get i = .ok (.long n)) :
      ScalarCode .long (.long n) (BigEndian.u16 i)
  | float {i : UInt16} {bits : UInt32} (h : t.get i = .ok (.float bits)) :
      ScalarCode .float (.float bits) (BigEndian.u16 i)
  | double {i : UInt16} {bits : UInt64} (h : t.get i = .ok (.double bits)) :
      ScalarCode .double (.double bits) (BigEndian.u16 i)
  | string {i : UInt16} {s : String} (h : t.get i = .ok (.utf8 s)) :
      ScalarCode .string (.string s) (BigEndian.u16 i)
  | enum {i j : UInt16} {type constant : String} (htype : NamesType t i type)
      (h : t.get j = .ok (.utf8 constant)) :
      ScalarCode .enum (.enum type constant) (BigEndian.u16 i ++ BigEndian.u16 j)
  | class {i : UInt16} {name : String} (h : NamesType t i name) :
      ScalarCode .class (.class name) (BigEndian.u16 i)

/-- The bytes of a part of a marker. -/
inductive Encodes : {form : Form} → MarkerTree form → Bytes → Prop
  | marker {outer : Option String} {type : String} {properties : MarkerTree .properties}
      {i n : UInt16} {code : Bytes} (htype : NamesType t i type) (hn : n.toNat = properties.count)
      (h : Encodes properties code) :
      Encodes (.marker type properties : MarkerTree (.marker outer))
        (BigEndian.u16 i ++ (BigEndian.u16 n ++ code))
  | value {outer : Option String} {kind : Kind} {s : Scalar} {code : Bytes}
      (h : ScalarCode t kind s code) :
      Encodes (.value s : MarkerTree (.content outer)) ((ElementTag.scalar kind).byte :: code)
  | nested {outer : Option String} {m : MarkerTree (.marker outer)} {code : Bytes}
      (h : Encodes m code) : Encodes (.nested m) (ElementTag.marker.byte :: code)
  | array {name : String} {elements : MarkerTree .elements} {n : UInt16} {code : Bytes}
      (hn : n.toNat = elements.count) (h : Encodes elements code) :
      Encodes (.array elements : MarkerTree (.content (some name)))
        (ElementTag.array.byte :: (BigEndian.u16 n ++ code))
  | noProperties : Encodes .noProperties []
  | property {name : String} {content : MarkerTree (.content (some name))}
      {others : MarkerTree .properties} {i : UInt16} {code code' : Bytes}
      (hname : t.get i = .ok (.utf8 name)) (h : Encodes content code) (h' : Encodes others code') :
      Encodes (.property name content others) (BigEndian.u16 i ++ code ++ code')
  | noElements : Encodes .noElements []
  | element {content : MarkerTree (.content none)} {others : MarkerTree .elements}
      {code code' : Bytes} (h : Encodes content code) (h' : Encodes others code') :
      Encodes (.element content others) (code ++ code')

end Grammar

/-! ## Scalars -/

section Scalars

variable {t : ConstantTable}

theorem ofByte?_eq_some_iff {b : UInt8} {tag : ElementTag} :
    ElementTag.ofByte? b = some tag ↔ b = tag.byte := by
  constructor
  · intro h
    obtain ⟨⟨letter, _⟩, hfind, rfl⟩ := Option.map_eq_some_iff.1 h
    have hletter : letter.toNat = b.toNat := by simpa using List.find?_some hfind
    have hb : b = UInt8.ofNat letter.toNat := by rw [hletter, UInt8.ofNat_toNat]
    -- The letters of the table are those of the tags, entry by entry.
    have hmem := List.mem_of_find?_eq_some hfind
    simp only [elementTags, List.mem_cons, List.not_mem_nil, or_false, Prod.mk.injEq] at hmem
    rcases hmem with ⟨rfl, rfl⟩ | ⟨rfl, rfl⟩ | ⟨rfl, rfl⟩ | ⟨rfl, rfl⟩ | ⟨rfl, rfl⟩ | ⟨rfl, rfl⟩ |
      ⟨rfl, rfl⟩ | ⟨rfl, rfl⟩ | ⟨rfl, rfl⟩ | ⟨rfl, rfl⟩ | ⟨rfl, rfl⟩ | ⟨rfl, rfl⟩ | ⟨rfl, rfl⟩
    all_goals exact hb
  · rintro rfl
    cases tag with
    | scalar kind => cases kind <;> rfl
    | marker => rfl
    | array => rfl

theorem parses_elementTag : Reader.Parses readElementTag fun tag bs => bs = [tag.byte] := by
  refine (parses_u8.bind_still (A := fun b tag => ElementTag.ofByte? b = some tag)
    fun b => ?_).congr fun tag bs => ?_
  · cases ElementTag.ofByte? b with
    | some tag =>
      exact (parses_pure tag).congr fun tag' bs => by rw [Option.some.injEq, @eq_comm _ tag]
    | none => exact Reader.parses_fail _ _ (by simp)
  · simp only [ofByte?_eq_some_iff]
    constructor
    · rintro ⟨b, rfl, rfl⟩
      rfl
    · rintro rfl
      exact ⟨_, rfl, rfl⟩

theorem parses_indexed {α : Type} (look : UInt16 → Except Fault α) :
    Reader.Parses (readIndexed look) fun a bs => ∃ i, bs = BigEndian.u16 i ∧ look i = .ok a :=
  parses_u16.bind_still fun i => parses_ofExcept (look i)

theorem parses_typeName : Reader.Parses (readTypeName t)
    fun type bs => ∃ i, bs = BigEndian.u16 i ∧ NamesType t i type := by
  refine ((parses_indexed t.utf8).bind_still
    (A := fun descriptor type => Descriptor.toName descriptor = .ok type) fun descriptor => ?_).congr
    fun type bs => ?_
  · cases Descriptor.toName descriptor with
    | error cause => exact Reader.parses_fail _ _ (by simp)
    | ok name =>
      exact (parses_pure name).congr fun type bs => by rw [Except.ok.injEq, @eq_comm _ type]
  · constructor
    · rintro ⟨descriptor, ⟨i, rfl, hi⟩, hname⟩
      exact ⟨i, rfl, descriptor, ConstantTable.utf8_eq_ok_iff.1 hi, hname⟩
    · rintro ⟨i, rfl, descriptor, hi, hname⟩
      exact ⟨descriptor, ⟨i, rfl, ConstantTable.utf8_eq_ok_iff.2 hi⟩, hname⟩

theorem parses_bounded (low high : Int) : Reader.Parses (readBounded t low high)
    fun n bs => ∃ i, bs = BigEndian.u16 i ∧ t.get i = .ok (.integer n) ∧
      low ≤ n.toInt ∧ n.toInt ≤ high := by
  refine ((parses_indexed t.integer).bind_still
    (A := fun n m => m = n ∧ low ≤ n.toInt ∧ n.toInt ≤ high) fun n => ?_).congr fun n bs => ?_
  · split
    next hn =>
      refine (parses_pure n).congr fun m bs => ?_
      simp only [hn, and_true]
    next hn =>
      refine Reader.parses_fail _ _ ?_
      rintro m bs ⟨⟨-, hbounds⟩, -⟩
      exact hn hbounds
  · constructor
    · rintro ⟨n, ⟨i, rfl, hi⟩, rfl, hn⟩
      exact ⟨i, rfl, ConstantTable.integer_eq_ok_iff.1 hi, hn⟩
    · rintro ⟨i, rfl, hi, hn⟩
      exact ⟨n, ⟨i, rfl, ConstantTable.integer_eq_ok_iff.2 hi⟩, rfl, hn⟩

/-- A scalar that is made of one constant. -/
theorem parses_made {α : Type} {look : UInt16 → Except Fault α} {constant : α → Constant}
    {make : α → Scalar} {G : Scalar → Bytes → Prop}
    (hlook : ∀ {i a}, look i = .ok a ↔ t.get i = .ok (constant a))
    (hmake : ∀ {i a}, t.get i = .ok (constant a) → G (make a) (BigEndian.u16 i))
    (hmade : ∀ s bs, G s bs → ∃ i a, t.get i = .ok (constant a) ∧ s = make a ∧ bs = BigEndian.u16 i) :
    Reader.Parses (readIndexed look >>= fun a => pure (make a)) G := by
  refine ((parses_indexed look).bind_still fun a => parses_pure (make a)).congr fun s bs => ?_
  constructor
  · rintro ⟨a, ⟨i, rfl, hi⟩, rfl⟩
    exact hmake (hlook.1 hi)
  · intro h
    obtain ⟨i, a, hi, rfl, rfl⟩ := hmade s bs h
    exact ⟨a, ⟨i, rfl, hlook.2 hi⟩, rfl⟩

/-- A unit of 16 bits is a character or a surrogate. -/
theorem scalarCode_unit {s : Scalar} {bs : Bytes} : ScalarCode t .char s bs ↔
    ∃ i n, bs = BigEndian.u16 i ∧ t.get i = .ok (.integer n) ∧ (0 ≤ n.toInt ∧ n.toInt ≤ 65535) ∧
      s = scalarOfUnit n := by
  constructor
  · intro h
    cases h with
    | @char i n c h hc hunit =>
      refine ⟨i, n, rfl, h, by omega, ?_⟩
      have hn : n = Int32.ofNat c.toNat := by
        apply Int32.toInt_inj.1
        rw [hc, Int32.toInt_ofNat_of_lt (by omega)]
      rw [hn, scalarOfUnit_ofNat hunit]
    | @surrogate i n h hn =>
      refine ⟨i, n, rfl, h, by omega, ?_⟩
      unfold scalarOfUnit
      rw [if_pos (by omega)]
  · rintro ⟨i, n, rfl, h, hn, rfl⟩
    unfold scalarOfUnit
    dsimp only
    split
    next hunit => exact .surrogate h (by omega)
    next hunit =>
      have hchar : (Char.ofNat n.toInt.toNat).toNat = n.toInt.toNat :=
        Text.Utf16.toNat_ofNat (by omega) (by omega)
      exact .char h (by rw [hchar]; omega) (by rw [hchar]; omega)

/-- Scalars are read from the bytes that the grammar gives for them. -/
theorem parses_scalar (kind : Kind) : Reader.Parses (readScalar t kind) (ScalarCode t kind) := by
  cases kind with
  | bool =>
    refine parses_made ConstantTable.integer_eq_ok_iff .bool ?_
    intro s bs hcode
    cases hcode with
    | bool h => exact ⟨_, _, h, rfl, rfl⟩
  | int =>
    refine parses_made ConstantTable.integer_eq_ok_iff .int ?_
    intro s bs hcode
    cases hcode with
    | int h => exact ⟨_, _, h, rfl, rfl⟩
  | long =>
    refine parses_made ConstantTable.long_eq_ok_iff .long ?_
    intro s bs hcode
    cases hcode with
    | long h => exact ⟨_, _, h, rfl, rfl⟩
  | float =>
    refine parses_made ConstantTable.float_eq_ok_iff .float ?_
    intro s bs hcode
    cases hcode with
    | float h => exact ⟨_, _, h, rfl, rfl⟩
  | double =>
    refine parses_made ConstantTable.double_eq_ok_iff .double ?_
    intro s bs hcode
    cases hcode with
    | double h => exact ⟨_, _, h, rfl, rfl⟩
  | string =>
    refine parses_made ConstantTable.utf8_eq_ok_iff .string ?_
    intro s bs hcode
    cases hcode with
    | string h => exact ⟨_, _, h, rfl, rfl⟩
  | char =>
    refine ((parses_bounded 0 65535).bind_still fun n => parses_pure (scalarOfUnit n)).congr
      fun s bs => ?_
    rw [scalarCode_unit]
    constructor
    · rintro ⟨n, ⟨i, hbs, h, hn⟩, hs⟩
      exact ⟨i, n, hbs, h, hn, hs⟩
    · rintro ⟨i, n, hbs, h, hn, hs⟩
      exact ⟨n, ⟨i, hbs, h, hn⟩, hs⟩
  | byte =>
    refine ((parses_bounded (-128) 127).bind_still fun n =>
      parses_pure (Scalar.byte (Int8.ofInt n.toInt))).congr fun s bs => ?_
    constructor
    · rintro ⟨n, ⟨i, rfl, h, hlow, hhigh⟩, rfl⟩
      exact .byte h (Int8.toInt_ofInt_of_le hlow (by omega)).symm
    · intro hcode
      cases hcode with
      | @byte i n b h hb =>
        have hlow := b.le_toInt
        have hhigh := b.toInt_lt
        exact ⟨n, ⟨i, rfl, h, by omega⟩, by rw [hb, Int8.ofInt_toInt]⟩
  | short =>
    refine ((parses_bounded (-32768) 32767).bind_still fun n =>
      parses_pure (Scalar.short (Int16.ofInt n.toInt))).congr fun s bs => ?_
    constructor
    · rintro ⟨n, ⟨i, rfl, h, hlow, hhigh⟩, rfl⟩
      exact .short h (Int16.toInt_ofInt_of_le hlow (by omega)).symm
    · intro hcode
      cases hcode with
      | @short i n m h hm =>
        have hlow := m.le_toInt
        have hhigh := m.toInt_lt
        exact ⟨n, ⟨i, rfl, h, by omega⟩, by rw [hm, Int16.ofInt_toInt]⟩
  | enum =>
    refine (parses_typeName.bind fun type => (parses_indexed t.utf8).bind_still fun constant =>
      parses_pure (Scalar.enum type constant)).congr fun s bs => ?_
    constructor
    · rintro ⟨type, _, _, rfl, ⟨i, rfl, htype⟩, constant, ⟨j, rfl, hj⟩, rfl⟩
      exact .enum htype (ConstantTable.utf8_eq_ok_iff.1 hj)
    · intro hcode
      cases hcode with
      | @enum i j type constant htype hj =>
        exact ⟨type, _, _, rfl, ⟨i, rfl, htype⟩, constant,
          ⟨j, rfl, ConstantTable.utf8_eq_ok_iff.2 hj⟩, rfl⟩
  | «class» =>
    refine (parses_typeName.bind_still fun name => parses_pure (Scalar.class name)).congr fun s bs => ?_
    constructor
    · rintro ⟨name, ⟨i, rfl, htype⟩, rfl⟩
      exact .class htype
    · intro hcode
      cases hcode with
      | «class» htype => exact ⟨_, ⟨_, rfl, htype⟩, rfl⟩

end Scalars

end MarkerIndex.ClassFile
