/-
The faults of the bytes. Reading a class descriptor runs out of bytes, meets bytes that spell
nothing, an index that leads nowhere, or a form that is not allowed; it never reports that something
was told out of place. Such a report is left to the collector of what is told.
-/
import MarkerIndex.ClassFile.Decode

namespace MarkerIndex

/-- What is reported is out of place among the things that are told of a descriptor. -/
def Malformation.isMistold : Malformation → Bool
  | .unnamedValue | .strayValue | .strayArrayEnd | .strayMarkerEnd | .missingHeader => true
  | _ => false

/-- The fault is one of the bytes, or of the values in them. -/
def Fault.OfBytes : Fault → Prop
  | .malformed cause => cause.isMistold = false
  | _ => True

namespace Reader

variable {α β : Type}

/-! ## Readers -/

/-- Every fault of the reader is one of the bytes. -/
def Plain (r : Reader α) : Prop := ∀ bytes f rest, r bytes = (.error f, rest) → f.OfBytes

@[simp] theorem plain_pure (a : α) : Plain (pure a) := by
  intro bytes f rest h; cases h

@[simp] theorem plain_done (a : α) : Plain (done a) := plain_pure a

theorem plain_fail {f : Fault} (h : f.OfBytes) : Plain (fail f : Reader α) := by
  intro bytes f rest hf; cases hf; exact h

@[simp] theorem plain_bind {r : Reader α} {g : α → Reader β} (hr : Plain r) (hg : ∀ a, Plain (g a)) :
    Plain (r >>= g) := by
  intro bytes f rest h
  change andThen r g bytes = _ at h
  unfold andThen at h
  rcases hbytes : r bytes with ⟨e | a, left⟩
  · rw [hbytes] at h; cases h
    exact hr bytes f _ hbytes
  · rw [hbytes] at h
    exact hg a left f rest h

@[simp] theorem plain_map {r : Reader α} (g : α → β) (hr : Plain r) : Plain (g <$> r) :=
  plain_bind hr fun _ => plain_pure _

/-- The faults of a look-up. -/
def PlainAnswer (e : Except Fault α) : Prop := ∀ f, e = .error f → f.OfBytes

@[simp] theorem plain_ofExcept {e : Except Fault α} (h : PlainAnswer e) : Plain (ofExcept e) := by
  intro bytes f rest hf
  cases hf
  exact h f rfl

@[simp] theorem plain_take (n : Nat) : Plain (take n) := by
  intro bytes f rest h
  unfold take at h
  split at h
  · cases h
  · cases h; trivial

@[simp] theorem plain_skip (n : Nat) : Plain (skip n) := by
  intro bytes f rest h
  unfold skip at h
  split at h
  · cases h
  · cases h; trivial

@[simp] theorem plain_u8 : Plain u8 := by simp [u8, number]
@[simp] theorem plain_u16 : Plain u16 := by simp [u16, number]
@[simp] theorem plain_u32 : Plain u32 := by simp [u32, number]
@[simp] theorem plain_u64 : Plain u64 := by simp [u64, number]
@[simp] theorem plain_i32 : Plain i32 := by simp [i32]
@[simp] theorem plain_i64 : Plain i64 := by simp [i64]

@[simp] theorem plain_text (n : Nat) : Plain (text n) := by
  refine plain_bind (plain_take n) fun bytes => ?_
  split
  · exact plain_done _
  · exact plain_fail rfl

end Reader

namespace ClassFile

open Reader

variable {α : Type}

/-! ## The table of constants -/

namespace ConstantTable

theorem plain_readBody (tag : UInt8) (index : Nat) : Plain (readBody tag index) := by
  unfold readBody
  split
  case h_18 => exact plain_fail rfl
  all_goals simp [readReference, readDynamic]

theorem plain_readSlots (slots : Nat) (filled : Array (Option Constant)) :
    Plain (readSlots slots filled) := by
  fun_induction readSlots slots filled with
  | case1 => exact plain_done _
  | case2 rest filled wide narrow =>
    refine plain_bind (plain_bind plain_u8 fun tag => plain_readBody tag _) fun c => ?_
    split
    · cases rest with
      | zero => exact plain_fail rfl
      | succ rest => exact wide c
    · exact narrow c

theorem plain_read : Plain read := by
  refine plain_bind plain_u16 fun count => ?_
  split
  · exact plain_fail rfl
  · exact plain_readSlots _ _

variable (t : ConstantTable) (index : UInt16)

/-- A look-up by kind fails where there is no constant, and where there is one of another kind. -/
theorem plainAnswer_of_get {look : Constant → Except Fault α} (h : ∀ c, PlainAnswer (look c)) :
    PlainAnswer (t.get index >>= look) := by
  intro f hf
  unfold get at hf
  split at hf
  next c _ => exact h c f hf
  next => cases hf; rfl

theorem plainAnswer_wrongKind (expected : ConstantKind) (found : Constant) :
    PlainAnswer (wrongKind expected index found : Except Fault α) := by
  intro f h; cases h; rfl

/-- A look-up that gives what it expects, or says that it found another kind. -/
theorem plainAnswer_of_kind (expected : ConstantKind) {look : Constant → Except Fault α}
    (h : ∀ c, look c = wrongKind expected index c ∨ ∃ a, look c = .ok a) :
    PlainAnswer (t.get index >>= look) := by
  refine plainAnswer_of_get t index fun c => ?_
  obtain hc | ⟨a, hc⟩ := h c
  · rw [hc]; exact plainAnswer_wrongKind index expected c
  · rw [hc]; intro f hf; cases hf

theorem plainAnswer_utf8 : PlainAnswer (t.utf8 index) :=
  plainAnswer_of_kind t index .utf8 fun c => by cases c <;> simp [pure, Except.pure]

theorem plainAnswer_integer : PlainAnswer (t.integer index) :=
  plainAnswer_of_kind t index .integer fun c => by cases c <;> simp [pure, Except.pure]

theorem plainAnswer_long : PlainAnswer (t.long index) :=
  plainAnswer_of_kind t index .long fun c => by cases c <;> simp [pure, Except.pure]

theorem plainAnswer_float : PlainAnswer (t.float index) :=
  plainAnswer_of_kind t index .float fun c => by cases c <;> simp [pure, Except.pure]

theorem plainAnswer_double : PlainAnswer (t.double index) :=
  plainAnswer_of_kind t index .double fun c => by cases c <;> simp [pure, Except.pure]

theorem plainAnswer_className : PlainAnswer (t.className index) := by
  refine plainAnswer_of_get t index fun c => ?_
  split
  next name =>
    intro f hf
    cases hname : t.utf8 name with
    | error e => rw [hname] at hf; cases hf; exact plainAnswer_utf8 t name _ hname
    | ok s => rw [hname] at hf; cases hf
  · exact plainAnswer_wrongKind index _ _

end ConstantTable

/-! ## Elements -/

theorem plain_readIndexed {look : UInt16 → Except Fault α} (h : ∀ index, PlainAnswer (look index)) :
    Plain (readIndexed look) := plain_bind plain_u16 fun index => plain_ofExcept (h index)

variable (t : ConstantTable)

theorem toName_isMistold {descriptor : String} {cause : Malformation}
    (h : Descriptor.toName descriptor = .error cause) : cause.isMistold = false := by
  unfold Descriptor.toName at h
  dsimp only at h
  split at h
  · cases h; rfl
  · split at h
    · cases h; rfl
    · cases h

theorem plain_readTypeName : Plain (readTypeName t) := by
  refine plain_bind (plain_readIndexed t.plainAnswer_utf8) fun descriptor => ?_
  split
  · exact plain_pure _
  next cause hcause => exact plain_fail (toName_isMistold hcause)

theorem plain_readElementTag : Plain readElementTag := by
  refine plain_bind plain_u8 fun b => ?_
  split
  · exact plain_pure _
  · exact plain_fail rfl

theorem plain_readBounded (low high : Int) : Plain (readBounded t low high) := by
  refine plain_bind (plain_readIndexed t.plainAnswer_integer) fun n => ?_
  split
  · exact plain_pure _
  · exact plain_fail rfl

theorem plain_readScalar (kind : Kind) : Plain (readScalar t kind) := by
  cases kind with
  | byte | short | char => exact plain_map _ (plain_readBounded t _ _)
  | bool | int => exact plain_map _ (plain_readIndexed t.plainAnswer_integer)
  | long => exact plain_map _ (plain_readIndexed t.plainAnswer_long)
  | float => exact plain_map _ (plain_readIndexed t.plainAnswer_float)
  | double => exact plain_map _ (plain_readIndexed t.plainAnswer_double)
  | string => exact plain_map _ (plain_readIndexed t.plainAnswer_utf8)
  | enum =>
    exact plain_bind (plain_readTypeName t) fun type =>
      plain_map _ (plain_readIndexed t.plainAnswer_utf8)
  | «class» => exact plain_map _ (plain_readTypeName t)

/-! ## The descriptor -/

theorem plain_readClassNames (n : Nat) (names : List String) : Plain (readClassNames t n names) := by
  induction n generalizing names with
  | zero => exact plain_done _
  | succ n ih => exact plain_bind (plain_readIndexed t.plainAnswer_className) fun name => ih _

theorem plain_readHeader : Plain readHeader := by
  refine plain_bind plain_u32 fun number => ?_
  split
  · exact plain_fail trivial
  · refine plain_bind plain_u16 fun minor => plain_bind plain_u16 fun major => ?_
    refine plain_bind ConstantTable.plain_read fun t => plain_bind plain_u16 fun flags => ?_
    refine plain_bind (plain_readIndexed t.plainAnswer_className) fun name => ?_
    have hinterfaces : ∀ super : Option String, Plain (do
        let count ← u16
        let interfaces ← readClassNames t count.toNat []
        return ((⟨minor, major, flags, name, super, interfaces⟩ : Header), t)) := fun super =>
      plain_bind plain_u16 fun count =>
        plain_bind (plain_readClassNames t _ _) fun interfaces => plain_pure _
    refine plain_bind plain_u16 fun superIndex => ?_
    split
    · exact hinterfaces none
    · exact plain_bind (plain_map _ (plain_ofExcept (t.plainAnswer_className superIndex))) hinterfaces

theorem plain_readTimes {r : Reader Unit} (n : Nat) (h : Plain r) : Plain (readTimes n r) := by
  induction n with
  | zero => exact plain_done _
  | succ n ih => exact plain_bind h fun _ => ih

theorem plain_skipMembers : Plain skipMembers := by
  have hattribute : Plain skipAttribute := by simp [skipAttribute]
  have hmember : Plain skipMember :=
    plain_bind (plain_skip 6) fun _ => plain_bind plain_u16 fun count => plain_readTimes _ hattribute
  exact plain_bind plain_u16 fun count => plain_readTimes _ hmember

end ClassFile

end MarkerIndex
