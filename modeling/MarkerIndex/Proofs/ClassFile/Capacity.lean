/-
When a class can be written. Every table that is written has a count of two bytes, every attribute a
length of four, and all that is named stands in one table of constants. A class within these bounds
is always written, and any other one is refused.

The bounds are stated on the class alone. A value has its parts, itself and all that is inside; what
is written for one is put together from what is written for each part: its own table, its own
constants and its own bytes.
-/
import MarkerIndex.Proofs.ClassFile.Values
import MarkerIndex.Proofs.ClassFile.Wanted

namespace MarkerIndex

/-! ## Parts -/

/-- A value and the values inside. -/
def Value.parts : Value → List Value
  | .scalar s => [.scalar s]
  | .array ss => .array ss :: ss.map .scalar
  | .marker m => .marker m :: m.properties.resolved.attach.flatMap fun ⟨(_, v), _⟩ => v.parts
  | .markers ms => .markers ms :: ms.attach.flatMap fun ⟨m, _⟩ => (Value.marker m).parts
termination_by v => sizeOf v
decreasing_by
  · have := m.sizeOf_properties_lt
    have := Layered.sizeOf_lt_of_mem ‹_ ∈ m.properties.resolved›
    simp at this ⊢
    omega
  · have := List.sizeOf_lt_of_mem ‹m ∈ ms›
    simp
    omega

namespace Value

theorem parts_scalar (s : Scalar) : (scalar s).parts = [.scalar s] := by rw [parts]

theorem parts_array (ss : List Scalar) : (array ss).parts = .array ss :: ss.map .scalar := by
  rw [parts]

theorem parts_marker (m : Marker Unit) : (marker m).parts =
    .marker m :: m.properties.resolved.flatMap fun e => e.2.parts := by
  rw [parts, List.flatMap_subtype (g := fun e : String × Value => e.2.parts) fun _ _ => rfl,
    List.unattach_attach]

theorem parts_markers (ms : List (Marker Unit)) : (markers ms).parts =
    .markers ms :: ms.flatMap fun m => (marker m).parts := by
  rw [parts, List.flatMap_subtype (g := fun m => (marker m).parts) fun _ _ => rfl,
    List.unattach_attach]

end Value

/-! ## What is written for a part -/

open ClassFile (Wanted)

/-- The constants that a scalar is written with. -/
def Scalar.wanted : Scalar → List Wanted
  | .bool b => [.integer (if b then 1 else 0)]
  | .char c => [.integer (Int32.ofNat c.toNat)]
  | .byte n => [.integer n.toInt32]
  | .short n => [.integer n.toInt32]
  | .int n => [.integer n]
  | .long n => [.long n]
  | .float bits => [.float bits]
  | .double bits => [.double bits]
  | .string s => [.text s]
  | .class name => [.text (ClassFile.Descriptor.ofName name)]
  | .enum type constant => [.text (ClassFile.Descriptor.ofName type), .text constant]

/-- A scalar is a letter and an index; a constant of an enumeration has two. -/
def Scalar.width : Scalar → Nat
  | .enum _ _ => 5
  | _ => 3

namespace Value

/-- The entries of the value's own table: the elements of an array, and the properties of a marker
that resolve. -/
def entries : Value → Nat
  | .scalar _ => 0
  | .array ss => ss.length
  | .marker m => m.properties.size
  | .markers ms => ms.length

/-- The constants that the value itself is written with. A marker has those of its type and of the
names of its properties. -/
def ownWanted : Value → List Wanted
  | .scalar s => s.wanted
  | .marker m => .text (ClassFile.Descriptor.ofName m.type) :: m.properties.keys.map .text
  | .array _ | .markers _ => []

/-- The bytes of the value itself: a letter and a count, and for a marker an index for its type and
for each name. -/
def ownWidth : Value → Nat
  | .scalar s => s.width
  | .marker m => 5 + 2 * m.properties.size
  | .array _ | .markers _ => 3

/-- The constants that the value is written with. -/
def wanted (v : Value) : List Wanted := v.parts.flatMap ownWanted

/-- The number of bytes that the value is written in. -/
def width (v : Value) : Nat := (v.parts.map ownWidth).sum

/-- Every table inside the value has a count. -/
def Counted (v : Value) : Prop := ∀ p ∈ v.parts, p.entries ≤ 65535

variable {w : Wanted}

theorem sum_map_flatMap {α β : Type} (xs : List α) (f : α → List β) (g : β → Nat) :
    ((xs.flatMap f).map g).sum = (xs.map fun x => ((f x).map g).sum).sum := by
  rw [List.map_flatMap, List.flatMap_def, List.sum_flatten, List.map_map]
  rfl

theorem wanted_scalar (s : Scalar) : (scalar s).wanted = s.wanted := by
  simp [wanted, parts_scalar, ownWanted]

theorem counted_scalar (s : Scalar) : (scalar s).Counted := by
  simp [Counted, parts_scalar, entries]

theorem width_scalar (s : Scalar) : (scalar s).width = s.width := by
  simp [width, parts_scalar, ownWidth]

theorem wanted_array (ss : List Scalar) : (array ss).wanted = ss.flatMap Scalar.wanted := by
  simp [wanted, parts_array, ownWanted, List.flatMap_map]

theorem counted_array_iff {ss : List Scalar} : (array ss).Counted ↔ ss.length ≤ 65535 := by
  simp [Counted, parts_array, entries]

theorem width_array (ss : List Scalar) : (array ss).width = 3 + (ss.map Scalar.width).sum := by
  simp [width, parts_array, ownWidth, Function.comp_def]

/-- Each name is asked for in front of its value. -/
theorem mem_wanted_marker_iff {m : Marker Unit} : w ∈ (marker m).wanted ↔
    w ∈ .text (ClassFile.Descriptor.ofName m.type) ::
      m.properties.resolved.flatMap fun e => .text e.1 :: e.2.wanted := by
  have hkeys : m.properties.keys.map Wanted.text = m.properties.resolved.map fun e => .text e.1 :=
    List.map_map ..
  have hinside : (m.properties.resolved.flatMap fun e => e.2.parts).flatMap ownWanted =
      m.properties.resolved.flatMap fun e => e.2.wanted := List.flatMap_assoc ..
  rw [wanted, parts_marker, List.flatMap_cons, ownWanted, hkeys, hinside]
  simp only [List.mem_append, List.mem_cons, List.mem_map, List.mem_flatMap, or_assoc,
    and_or_left, exists_or, @eq_comm _ w]

theorem counted_marker_iff {m : Marker Unit} : (marker m).Counted ↔
    m.properties.size ≤ 65535 ∧ ∀ e ∈ m.properties.resolved, e.2.Counted := by
  simp only [Counted, parts_marker, List.forall_mem_cons, entries, List.forall_mem_flatMap]

theorem width_marker (m : Marker Unit) : (marker m).width =
    1 + (2 + (2 + (m.properties.resolved.map fun e => 2 + e.2.width).sum)) := by
  have hnames : (m.properties.resolved.map fun e => 2 + e.2.width).sum =
      2 * m.properties.size + (m.properties.resolved.map fun e => e.2.width).sum := by
    rw [List.sum_map_add, List.map_const', List.sum_replicate_nat, Nat.mul_comm]
    rfl
  rw [hnames, width, parts_marker, List.map_cons, List.sum_cons, sum_map_flatMap, ownWidth]
  change _ + (m.properties.resolved.map fun e => e.2.width).sum = _
  omega

theorem wanted_markers {ms : List (Marker Unit)} : (markers ms).wanted =
    ms.flatMap fun m => (marker m).wanted := by
  simp [wanted, parts_markers, ownWanted, List.flatMap_assoc]

theorem counted_markers_iff {ms : List (Marker Unit)} : (markers ms).Counted ↔
    ms.length ≤ 65535 ∧ ∀ m ∈ ms, (marker m).Counted := by
  simp only [Counted, parts_markers, List.forall_mem_cons, entries, List.forall_mem_flatMap]

theorem width_markers (ms : List (Marker Unit)) : (markers ms).width =
    3 + (ms.map fun m => (marker m).width).sum := by
  rw [width, parts_markers, List.map_cons, List.sum_cons, sum_map_flatMap, ownWidth]
  rfl

end Value

namespace ClassFile

open Interning
open BigEndian (length_u16)

/-! ## Values -/

theorem writes_tagged {x : Interning UInt16} {ws : List Wanted} (tag : Char)
    (h : Costs x ws True fun _ => True) : Writes (encodeTagged tag <$> x) ws True 3 :=
  h.map fun i _ => by rw [encodeTagged, List.length_cons, length_u16]

theorem writes_scalar (s : Scalar) : Writes (encodeScalar s) s.wanted True s.width := by
  cases s with
  | enum type constant =>
    refine (costs_typeName type).bind_free fun i _ => (costs_text constant).bind_pure fun j _ => ?_
    rw [encodeTagged, List.length_append, List.length_cons, length_u16, length_u16]
    rfl
  | string s => exact writes_tagged 's' (costs_text s)
  | «class» name => exact writes_tagged 'c' (costs_typeName name)
  | _ => exact writes_tagged _ (costs_constant fun _ => rfl)

theorem writes_property {e : String × Value}
    (h : Writes (encodeValue e.2) e.2.wanted e.2.Counted e.2.width) :
    Writes (do
      let name ← Interning.text e.1
      let element ← encodeValue e.2
      return BigEndian.u16 name ++ element) (.text e.1 :: e.2.wanted) e.2.Counted
      (2 + e.2.width) := by
  refine (costs_text e.1).bind_free fun name _ => h.bind_pure fun element helement => ?_
  rw [List.length_append, length_u16, helement]

theorem writes_marker {m : Marker Unit} (h : ∀ e ∈ m.properties.resolved,
      Writes (encodeValue e.2) e.2.wanted e.2.Counted e.2.width) :
    Writes (encodeMarker m) (Value.marker m).wanted (Value.marker m).Counted
      ((Value.marker m).width - 1) := by
  have hproperties : Writes (encodeProperties m.properties)
      (m.properties.resolved.flatMap fun e => .text e.1 :: e.2.wanted)
      (m.properties.size ≤ 65535 ∧ ∀ e ∈ m.properties.resolved, e.2.Counted)
      (0 + 2 + (m.properties.resolved.map fun e => 2 + e.2.width).sum) := by
    rw [encodeProperties_eq]
    refine writes_counted (fun e he => writes_property (h e he)) fun count pairs => ?_
    rw [List.length_append, Nat.zero_add]
  rw [Value.width_marker, Nat.add_sub_cancel_left]
  refine Costs.congr ?_ (fun w => Value.mem_wanted_marker_iff) Value.counted_marker_iff
  refine (costs_typeName m.type).bind_free fun i _ =>
    hproperties.bind_pure fun properties hlength => ?_
  rw [List.length_append, length_u16, hlength, Nat.zero_add]

/-- A value is written with the constants of its parts, in the bytes of its parts, if all of their
tables have counts. -/
theorem writes_value (v : Value) : Writes (encodeValue v) v.wanted v.Counted v.width := by
  induction v using Value.parts.induct with
  | case1 s =>
    rw [encodeValue, Value.wanted_scalar, Value.width_scalar]
    exact (writes_scalar s).congr (fun _ => Iff.rfl) (iff_true_intro (Value.counted_scalar s))
  | case2 ss =>
    rw [encodeValue, Value.wanted_array, Value.width_array]
    refine (writes_counted (m := 1) (fun s (_ : s ∈ ss) => writes_scalar s) ?_).congr
      (fun _ => Iff.rfl) ?_
    · intro count elements
      rw [List.length_append, List.length_cons, Nat.add_comm count.length]
    · simp [Value.counted_array_iff]
  | case3 m ih =>
    rw [encodeValue_marker]
    refine (writes_marker fun e he => ih e.1 e.2 he).map fun bs hbs => ?_
    rw [List.length_cons, hbs, Value.width_marker]
    omega
  | case4 ms ih =>
    rw [encodeValue_markers, Value.wanted_markers, Value.width_markers]
    refine (writes_counted (m := 1) ih ?_).congr (fun _ => Iff.rfl) Value.counted_markers_iff
    intro count elements
    rw [List.length_append, List.length_cons, Nat.add_comm count.length]

/-! ## Classes -/

/-- The number of bytes of a list of markers: their number and the markers, none announced by a
letter as it is inside a value. -/
def markersWidth (ms : List (Marker Unit)) : Nat :=
  2 + (ms.map fun m => (Value.marker m).width - 1).sum

/-- The constants of a class that is named. -/
def classWanted (name : String) : List Wanted :=
  [.text (Descriptor.toInternal name), .class (Descriptor.toInternal name)]

/-- The constants of a member. -/
def memberWanted (member : String × String) : List Wanted := [.text member.1, .text member.2]

/-- The constants of a marker attribute. -/
def attributeWanted (a : String × List (Marker Unit)) : List Wanted :=
  (a.2.flatMap fun m => (Value.marker m).wanted) ++ [.text a.1]

/-- The attribute of a list of markers, which is not written where there are none. -/
def attributeOf (name : String) (ms : List (Marker Unit)) : List (String × List (Marker Unit)) :=
  if ms.isEmpty then [] else [(name, ms)]

namespace ClassSpec

/-- The marker attributes that are written. -/
def markerAttributes (c : ClassSpec) : List (String × List (Marker Unit)) :=
  attributeOf visibleMarkers c.visible ++ attributeOf invisibleMarkers c.invisible

/-- The number of bytes of each attribute body. -/
def bodyWidths (c : ClassSpec) : List Nat :=
  c.attributes.map (·.2.length) ++ c.markerAttributes.map fun a => markersWidth a.2

/-- The constants that the class is written with. -/
def wanted (c : ClassSpec) : List Wanted :=
  (c.name :: c.super.toList ++ c.interfaces).flatMap classWanted ++
    (c.fields ++ c.methods).flatMap memberWanted ++ c.attributes.map (fun a => .text a.1) ++
    c.markerAttributes.flatMap attributeWanted

/-- Every table of the class has a count of two bytes, and every attribute a length of four. -/
structure Countable (c : ClassSpec) : Prop where
  interfaces : c.interfaces.length ≤ 65535
  fields : c.fields.length ≤ 65535
  methods : c.methods.length ≤ 65535
  attributes : c.attributes.length + c.markerAttributes.length ≤ 65535
  markers : ∀ a ∈ c.markerAttributes, a.2.length ≤ 65535
  /-- The properties of each marker that resolve, and the elements of each array. -/
  entries : ∀ a ∈ c.markerAttributes, ∀ m ∈ a.2, ∀ v ∈ (Value.marker m).parts, v.entries ≤ 65535
  bodies : ∀ n ∈ c.bodyWidths, n ≤ 4294967295

/-- The class is within the bounds of what can be written, and there is a table for its constants. -/
structure Bounded (c : ClassSpec) : Prop extends Countable c, RoomFor c.wanted

theorem countable_iff {c : ClassSpec} : c.Countable ↔ c.interfaces.length ≤ 65535 ∧
    c.fields.length ≤ 65535 ∧ c.methods.length ≤ 65535 ∧
    (∀ a ∈ c.markerAttributes, a.2.length ≤ 65535 ∧ ∀ m ∈ a.2, (Value.marker m).Counted) ∧
    c.bodyWidths.length ≤ 65535 ∧ ∀ n ∈ c.bodyWidths, n ≤ 4294967295 := by
  rw [bodyWidths, List.length_append, List.length_map, List.length_map]
  constructor
  · intro h
    exact ⟨h.interfaces, h.fields, h.methods, fun a ha => ⟨h.markers a ha, h.entries a ha⟩,
      h.attributes, h.bodies⟩
  · rintro ⟨hinterfaces, hfields, hmethods, hmarkers, hattributes, hbodies⟩
    exact ⟨hinterfaces, hfields, hmethods, hattributes, fun a ha => (hmarkers a ha).1,
      fun a ha => (hmarkers a ha).2, hbodies⟩

end ClassSpec

theorem costs_super {super : Option String} {rest : UInt16 → Interning Bytes} {us : List Wanted}
    {Q : Prop} {R : Bytes → Prop} (h : ∀ i, Costs (rest i) us Q R) :
    Costs (match super with
      | none => do rest (← pure 0)
      | some name => do rest (← Interning.className name))
      (super.toList.flatMap classWanted ++ us) Q R := by
  cases super with
  | none => exact (costs_pure trivial).bind_free fun i (_ : True) => h i
  | some name =>
    rw [Option.toList_some, List.flatMap_singleton]
    exact (costs_className name).bind_free fun i _ => h i

/-- A table whose entries ask for constants alone. -/
theorem costs_table {α : Type} {what : String} {xs : List α} {f : α → Interning Bytes}
    {ws : α → List Wanted} (h : ∀ x ∈ xs, Costs (f x) (ws x) True fun _ => True) :
    Costs (do
      let count ← encodeCount what xs.length
      let bodies ← xs.mapM f
      return count ++ bodies.flatten) (xs.flatMap ws) (xs.length ≤ 65535) fun _ => True :=
  ((writes_count what xs.length).bind fun _ _ =>
    (costs_mapM h).bind_pure fun _ _ => trivial).congr (fun _ => Iff.rfl) (by simp)

theorem costs_interfaces (names : List String) : Costs (encodeInterfaces names)
    (names.flatMap classWanted) (names.length ≤ 65535) fun _ => True :=
  costs_table fun name _ => (costs_className name).map fun _ _ => trivial

theorem costs_members (members : List (String × String)) : Costs (encodeMembers members)
    (members.flatMap memberWanted) (members.length ≤ 65535) fun _ => True :=
  costs_table fun member _ => (costs_text member.1).bind_free fun _ _ =>
    (costs_text member.2).bind_pure fun _ _ => trivial

/-- The names of attributes are asked for, and their bodies are kept. -/
theorem costs_plainAttributes (attributes : List (String × Bytes)) :
    Costs (attributes.mapM fun (name, body) => return (← Interning.text name, body))
      (attributes.map fun a => .text a.1) True
      fun named => named.map (·.2.length) = attributes.map (·.2.length) := by
  have helement : ∀ a ∈ attributes, Costs (do return (← Interning.text a.1, a.2)) [.text a.1]
      True fun named => named.2 = a.2 := fun a _ => (costs_text a.1).bind_pure fun _ _ => rfl
  have hwanted : (attributes.flatMap fun a => [Wanted.text a.1]) =
      attributes.map fun a => .text a.1 := (List.map_eq_flatMap ..).symm
  rw [← hwanted]
  refine ((costs_mapM helement).congr (fun _ => Iff.rfl) (by simp)).imp fun named hnamed => ?_
  exact map_eq_of_forall₂ (hnamed.imp fun _ _ h => by rw [h])

theorem costs_markerAttribute (name : String) (ms : List (Marker Unit)) :
    Costs (markerAttribute name ms) ((attributeOf name ms).flatMap attributeWanted)
      (∀ a ∈ attributeOf name ms, a.2.length ≤ 65535 ∧ ∀ m ∈ a.2, (Value.marker m).Counted)
      fun named =>
        named.map (·.2.length) = (attributeOf name ms).map fun a => markersWidth a.2 := by
  unfold markerAttribute attributeOf
  cases ms.isEmpty with
  | true =>
    have hnone : Costs (pure []) [] True
      fun named : List (UInt16 × Bytes) => named.map (·.2.length) = [] := costs_pure rfl
    exact hnone.congr (by simp) (by simp)
  | false =>
    have hmarkers := writes_mapM fun m (_ : m ∈ ms) =>
      writes_marker (m := m) fun e _ => writes_value e.2
    refine Costs.congr ((writes_count "markers" ms.length).bind fun count hcount =>
      hmarkers.bind fun bodies hbodies => (costs_text name).bind_pure fun i _ => ?_) ?_ ?_
    · simp [markersWidth, hcount, hbodies]
    · simp [attributeWanted]
    · simp

/-- An attribute is refused for its length alone. -/
theorem costs_attribute (i : UInt16) (body : Bytes) :
    Costs (encodeAttribute i body) [] (body.length ≤ 4294967295) fun _ => True := by
  unfold encodeAttribute
  split
  next h =>
    exact (costs_pure trivial).congr (fun _ => Iff.rfl) (iff_true_intro (Nat.le_of_lt_succ h))
  next h => exact costs_refuse _ fun hbody => h (Nat.lt_succ_of_le hbody)

/-- Attributes with bodies of these lengths. -/
theorem costs_attributes {attributes : List (UInt16 × Bytes)} {widths : List Nat}
    (h : attributes.map (·.2.length) = widths) {g : Bytes → List Bytes → Bytes} :
    Costs (do
      let count ← encodeCount "attributes" attributes.length
      let bodies ← attributes.mapM fun (name, body) => encodeAttribute name body
      return g count bodies) [] (widths.length ≤ 65535 ∧ ∀ n ∈ widths, n ≤ 4294967295)
      fun _ => True := by
  subst h
  have hbodies := costs_mapM fun a (_ : a ∈ attributes) => costs_attribute a.1 a.2
  refine Costs.congr ((writes_count "attributes" attributes.length).bind fun count _ =>
    hbodies.bind_pure fun bodies _ => trivial) ?_ ?_
  · simp
  · rw [List.length_map, List.forall_mem_map]

theorem costs_body (c : ClassSpec) : Costs (encodeBody c) c.wanted c.Countable fun _ => True := by
  have hwidths {plain visible invisible : List (UInt16 × Bytes)}
      (hplain : plain.map (·.2.length) = c.attributes.map (·.2.length))
      (hvisible : visible.map (·.2.length) =
        (attributeOf visibleMarkers c.visible).map fun a => markersWidth a.2)
      (hinvisible : invisible.map (·.2.length) =
        (attributeOf invisibleMarkers c.invisible).map fun a => markersWidth a.2) :
      (plain ++ visible ++ invisible).map (·.2.length) = c.bodyWidths := by
    rw [List.map_append, List.map_append, hplain, hvisible, hinvisible, ClassSpec.bodyWidths,
      ClassSpec.markerAttributes, List.map_append, List.append_assoc]
  refine Costs.congr ((costs_className c.name).bind_free fun name _ => costs_super fun super =>
    (costs_interfaces c.interfaces).bind fun interfaces _ =>
    (costs_members c.fields).bind fun fields _ =>
    (costs_members c.methods).bind fun methods _ =>
    (costs_plainAttributes c.attributes).bind_free fun plain hplain =>
    (costs_markerAttribute visibleMarkers c.visible).bind fun visible hvisible =>
    (costs_markerAttribute invisibleMarkers c.invisible).bind fun invisible hinvisible =>
    costs_attributes (hwidths hplain hvisible hinvisible)) ?_ ?_
  · simp [ClassSpec.wanted, ClassSpec.markerAttributes, classWanted]
  · rw [ClassSpec.countable_iff, ClassSpec.markerAttributes, List.forall_mem_append, and_assoc]

/-- A class within the bounds is written, and any other class is refused. In which order the
constants are asked for, and how often, does not matter. -/
theorem encode_ok_iff_bounded (c : ClassSpec) :
    ((∃ bytes, c.encode = .ok bytes) ↔ c.Bounded) ∧
      ((∃ cause, c.encode = .error (.refused cause)) ↔ ¬ c.Bounded) := by
  unfold ClassSpec.encode
  obtain ⟨hcountable, body, t, hbody, ht, -⟩ | ⟨hnot, cause, hbody⟩ :=
    costs_body c .empty [] TableBuilder.empty_holds
  · rw [StateT.run, hbody]
    have hyes : c.Bounded := ⟨hcountable, ht.room⟩
    exact ⟨⟨fun _ => hyes, fun _ => ⟨_, rfl⟩⟩, ⟨nofun, fun h => absurd hyes h⟩⟩
  · rw [StateT.run, hbody]
    have hno : ¬ c.Bounded := fun h => hnot ⟨h.toCountable, h.toRoomFor⟩
    exact ⟨⟨nofun, fun h => absurd h hno⟩, ⟨fun _ => hno, fun _ => ⟨cause, rfl⟩⟩⟩

end ClassFile

end MarkerIndex
