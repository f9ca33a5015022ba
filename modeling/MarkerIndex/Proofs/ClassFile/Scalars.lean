/-
Scalars written and read back: the bytes of a portable scalar are the byte that announces its kind
and a body that reads as the scalar in the table that is written in the end.
-/
import MarkerIndex.Proofs.ClassFile.Interning
import MarkerIndex.Proofs.ClassFile.Rebuilt

namespace MarkerIndex.ClassFile

open Reader Interning

variable {α : Type} {t : ConstantTable}

/-! ## Parts of scalars -/

theorem reads_indexed {look : UInt16 → Except Fault α} {i : UInt16} {a : α} (h : look i = .ok a) :
    Reads (readIndexed look) (BigEndian.u16 i) a :=
  (reads_u16 i).bind_nil (reads_ofExcept h)

theorem reads_typeName {i : UInt16} {name : String} (hs : Descriptor.Stable name)
    (h : t.utf8 i = .ok (Descriptor.ofName name)) :
    Reads (readTypeName t) (BigEndian.u16 i) name := by
  refine (reads_indexed h).bind_nil ?_
  rw [hs]; exact reads_pure name

theorem reads_bounded {i : UInt16} {n : Int32} (low high : Int) (h : t.get i = .ok (.integer n))
    (hn : low ≤ n.toInt ∧ n.toInt ≤ high) :
    Reads (readBounded t low high) (BigEndian.u16 i) n := by
  refine (reads_indexed (ConstantTable.integer_eq_ok_iff.2 h)).bind_nil ?_
  rw [if_pos hn]; exact reads_pure n

/-- A character of one unit is what its unit stands for. -/
theorem scalarOfUnit_ofNat {c : Char} (h : c.toNat < 0x10000) :
    scalarOfUnit (Int32.ofNat c.toNat) = .char c := by
  have hi : (Int32.ofNat c.toNat).toInt = c.toNat := by
    rw [Int32.toInt_ofNat_of_lt (by omega)]
  have hs : ¬ (0xD800 ≤ c.toNat ∧ c.toNat < 0xE000) := by
    have valid : c.toNat < 0xD800 ∨ 0xDFFF < c.toNat ∧ c.toNat < 0x110000 := c.valid
    omega
  unfold scalarOfUnit
  rw [hi]
  simp only [Int.toNat_natCast]
  rw [if_neg hs, Char.ofNat_toNat]

/-! ## Scalars -/

/-- The bytes of a scalar: the byte that announces its kind, and a body that reads as the scalar. -/
def SpellsScalar (t : ConstantTable) (bs : Bytes) (s : Scalar) : Prop :=
  ∃ tag body, bs = tag :: body ∧ ElementTag.ofByte? tag = some (.scalar s.kind) ∧
    Reads (readScalar t s.kind) body s

/-- A portable scalar is written as bytes that spell it. -/
theorem yields_scalar {s : Scalar} (h : s.Portable) :
    Yields (encodeScalar s) fun t bs => SpellsScalar t bs s := by
  cases s with
  | bool b =>
    refine (yields_constant _).map fun t i hi => ⟨_, _, rfl, rfl, ?_⟩
    have := (reads_indexed (ConstantTable.integer_eq_ok_iff.2 hi)).map fun n => Scalar.bool (n != 0)
    cases b <;> exact this
  | char c =>
    refine (yields_constant _).map fun t i hi => ⟨_, _, rfl, rfl, ?_⟩
    have hc : c.toNat < 0x10000 := h
    have hn : (Int32.ofNat c.toNat).toInt = c.toNat := Int32.toInt_ofNat_of_lt (by omega)
    have := (reads_bounded 0 65535 hi (by rw [hn]; omega)).map scalarOfUnit
    rwa [scalarOfUnit_ofNat hc] at this
  | byte n =>
    refine (yields_constant _).map fun t i hi => ⟨_, _, rfl, rfl, ?_⟩
    have hn : n.toInt32.toInt = n.toInt := Int8.toInt_toInt32 n
    have low := n.le_toInt
    have high := n.toInt_lt
    have := (reads_bounded (-128) 127 hi (by rw [hn]; omega)).map fun m =>
      Scalar.byte (Int8.ofInt m.toInt)
    rwa [hn, Int8.ofInt_toInt] at this
  | short n =>
    refine (yields_constant _).map fun t i hi => ⟨_, _, rfl, rfl, ?_⟩
    have hn : n.toInt32.toInt = n.toInt := Int16.toInt_toInt32 n
    have low := n.le_toInt
    have high := n.toInt_lt
    have := (reads_bounded (-32768) 32767 hi (by rw [hn]; omega)).map fun m =>
      Scalar.short (Int16.ofInt m.toInt)
    rwa [hn, Int16.ofInt_toInt] at this
  | int n =>
    refine (yields_constant _).map fun t i hi => ⟨_, _, rfl, rfl, ?_⟩
    exact (reads_indexed (ConstantTable.integer_eq_ok_iff.2 hi)).map Scalar.int
  | long n =>
    refine (yields_constant _).map fun t i hi => ⟨_, _, rfl, rfl, ?_⟩
    exact (reads_indexed (ConstantTable.long_eq_ok_iff.2 hi)).map Scalar.long
  | float bits =>
    refine (yields_constant _).map fun t i hi => ⟨_, _, rfl, rfl, ?_⟩
    exact (reads_indexed (ConstantTable.float_eq_ok_iff.2 hi)).map Scalar.float
  | double bits =>
    refine (yields_constant _).map fun t i hi => ⟨_, _, rfl, rfl, ?_⟩
    exact (reads_indexed (ConstantTable.double_eq_ok_iff.2 hi)).map Scalar.double
  | string s =>
    refine (yields_text s).map fun t i hi => ⟨_, _, rfl, rfl, ?_⟩
    exact (reads_indexed hi).map Scalar.string
  | enum type constant =>
    refine (yields_typeName type).bind fun i => (yields_text constant).bind fun j => ?_
    refine yields_pure fun t hj hi => ⟨_, _, rfl, rfl, ?_⟩
    exact (reads_typeName h hi).bind ((reads_indexed hj).map (Scalar.enum type))
  | «class» name =>
    refine (yields_typeName name).map fun t i hi => ⟨_, _, rfl, rfl, ?_⟩
    exact (reads_typeName h hi).map Scalar.class

end MarkerIndex.ClassFile
