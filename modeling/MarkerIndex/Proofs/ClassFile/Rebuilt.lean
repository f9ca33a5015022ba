/-
Values as they come back from a class descriptor. A descriptor holds what resolves, so a marker
comes back with its properties in one layer, and it does not tell an empty list of markers from an
empty array, so the first comes back as the second. Nothing else is lost: what comes back is the
same as the value with its empty lists of markers replaced by empty arrays, and every marker
lists its properties in the order in which they resolved.
-/
import MarkerIndex.ClassFile.Descriptor
import MarkerIndex.Marker
import MarkerIndex.Proofs.Value.Equality

namespace MarkerIndex

/-! ## Dictionaries with other values -/

namespace Entries

variable {β γ : Type}

/-- The same names with their values changed by `f`. -/
def mapValues (f : β → γ) (es : Entries String β) : Entries String γ := es.map fun e => (e.1, f e.2)

@[simp] theorem keys_mapValues (f : β → γ) (es : Entries String β) :
    (es.mapValues f).keys = es.keys := by
  simp [mapValues, keys]

theorem has_mapValues (f : β → γ) (es : Entries String β) (key : String) :
    (es.mapValues f).has key = es.has key := by
  rw [Bool.eq_iff_iff, has_iff_mem_keys, has_iff_mem_keys, keys_mapValues]

theorem Distinct.mapValues {es : Entries String β} (h : es.Distinct) (f : β → γ) :
    (es.mapValues f).Distinct := by
  unfold Distinct
  rwa [keys_mapValues]

theorem get?_mapValues {es : Entries String β} (h : es.Distinct) (f : β → γ) {e : String × β}
    (he : e ∈ es) : (es.mapValues f).get? e.1 = some (f e.2) :=
  get?_of_mem (h.mapValues f) (List.mem_map_of_mem he)

theorem attach_mapValues (f : β → γ) (es : Entries String β) :
    (es.attach.map fun ⟨(key, value), _⟩ => (key, f value)) = es.mapValues f :=
  List.attach_map_val (f := fun e : String × β => (e.1, f e.2))

end Entries

namespace Layered

variable {β γ : Type}

/-- The same layers with their values changed by `f`. -/
def mapValues (f : β → γ) (p : Layered β) : Layered γ :=
  ofLayers (p.layers.map (Entries.mapValues f))

theorem resolveLayers_map (f : β → γ) (ls : List (Entries String β)) :
    resolveLayers (ls.map (Entries.mapValues f)) = (resolveLayers ls).mapValues f := by
  induction ls with
  | nil => rfl
  | cons l ls ih =>
    rw [List.map_cons, resolveLayers, resolveLayers, ih]
    simp only [layerOver, Entries.has_mapValues]
    simp only [Entries.mapValues, List.map_append, List.filter_map]
    rfl

theorem resolved_mapValues (f : β → γ) (p : Layered β) :
    (p.mapValues f).resolved = p.resolved.mapValues f := resolveLayers_map f p.layers

/-- One layer resolves to itself. -/
theorem resolved_single (es : Entries String β) : (⟨es, []⟩ : Layered β).resolved = es :=
  layerOver_nil es

end Layered

/-! ## What comes back -/

mutual

/-- The value that comes back. -/
def Value.rebuilt : Value → Value
  | .scalar s => .scalar s
  | .array ss => .array ss
  | .marker m => .marker ⟨m.type, Properties.rebuilt m.properties, none⟩
  | .markers ms =>
    if ms.isEmpty then .array []
    else .markers (ms.attach.map fun ⟨m, _⟩ => ⟨m.type, Properties.rebuilt m.properties, none⟩)
termination_by v => sizeOf v
decreasing_by
  · have := m.sizeOf_properties_lt
    simp; omega
  · have := m.sizeOf_properties_lt
    have := List.sizeOf_lt_of_mem ‹m ∈ ms›
    simp; omega

/-- What resolves, in one layer. -/
def Properties.rebuilt (p : Properties) : Properties :=
  ⟨p.resolved.attach.map fun ⟨(key, value), _⟩ => (key, value.rebuilt), []⟩
termination_by sizeOf p
decreasing_by
  have := Layered.sizeOf_lt_of_mem ‹(key, value) ∈ p.resolved›
  simpa using this

end

/-- The marker that comes back. -/
def MarkerOf.rebuilt (m : Marker Unit) : Marker Unit :=
  ⟨m.type, Properties.rebuilt m.properties, none⟩

mutual

/-- The value with every empty list of markers in it replaced by an empty array. -/
def Value.emptiesAsArrays : Value → Value
  | .scalar s => .scalar s
  | .array ss => .array ss
  | .marker m => .marker ⟨m.type, Properties.emptiesAsArrays m.properties, m.element⟩
  | .markers ms =>
    if ms.isEmpty then .array []
    else .markers (ms.attach.map fun ⟨m, _⟩ =>
      ⟨m.type, Properties.emptiesAsArrays m.properties, m.element⟩)
termination_by v => sizeOf v
decreasing_by
  · have := m.sizeOf_properties_lt
    simp; omega
  · have := m.sizeOf_properties_lt
    have := List.sizeOf_lt_of_mem ‹m ∈ ms›
    simp; omega

/-- The replacement in every value of every layer. -/
def Properties.emptiesAsArrays (p : Properties) : Properties :=
  Layered.ofLayers (p.layers.attach.map fun ⟨layer, _⟩ =>
    layer.attach.map fun ⟨(key, value), _⟩ => (key, value.emptiesAsArrays))
termination_by sizeOf p
decreasing_by
  have := Layered.sizeOf_lt_of_mem_layer ‹layer ∈ p.layers› ‹(key, value) ∈ layer›
  simpa using this

end

/-- The marker with every empty list of markers in it replaced by an empty array. -/
def MarkerOf.emptiesAsArrays (m : Marker Unit) : Marker Unit :=
  ⟨m.type, Properties.emptiesAsArrays m.properties, m.element⟩

namespace Properties

theorem rebuilt_eq (p : Properties) : p.rebuilt = ⟨p.resolved.mapValues Value.rebuilt, []⟩ := by
  rw [rebuilt, Entries.attach_mapValues]

theorem emptiesAsArrays_eq (p : Properties) :
    p.emptiesAsArrays = p.mapValues Value.emptiesAsArrays := by
  rw [emptiesAsArrays, Layered.mapValues]
  simp only [Entries.attach_mapValues]
  rw [List.attach_map_val (f := Entries.mapValues Value.emptiesAsArrays)]

theorem resolved_rebuilt (p : Properties) :
    p.rebuilt.resolved = p.resolved.mapValues Value.rebuilt := by
  rw [rebuilt_eq, Layered.resolved_single]

theorem resolved_emptiesAsArrays (p : Properties) :
    p.emptiesAsArrays.resolved = p.resolved.mapValues Value.emptiesAsArrays := by
  rw [emptiesAsArrays_eq, Layered.resolved_mapValues]

/-- The order in which properties resolve comes back. -/
theorem keys_rebuilt (p : Properties) : p.rebuilt.keys = p.keys := by
  rw [Layered.keys, resolved_rebuilt, Entries.keys_mapValues, Layered.keys]

end Properties

namespace Value

@[simp] theorem rebuilt_scalar (s : Scalar) : (scalar s).rebuilt = .scalar s := by rw [rebuilt]

@[simp] theorem rebuilt_array (ss : List Scalar) : (array ss).rebuilt = .array ss := by rw [rebuilt]

@[simp] theorem rebuilt_marker (m : Marker Unit) : (marker m).rebuilt = .marker m.rebuilt := by
  rw [rebuilt]; rfl

theorem rebuilt_markers (ms : List (Marker Unit)) : (markers ms).rebuilt =
    if ms.isEmpty then .array [] else .markers (ms.map MarkerOf.rebuilt) := by
  rw [rebuilt]
  congr 2
  exact List.attach_map_val (f := MarkerOf.rebuilt)

@[simp] theorem emptiesAsArrays_scalar (s : Scalar) : (scalar s).emptiesAsArrays = .scalar s := by
  rw [emptiesAsArrays]

@[simp] theorem emptiesAsArrays_array (ss : List Scalar) :
    (array ss).emptiesAsArrays = .array ss := by rw [emptiesAsArrays]

@[simp] theorem emptiesAsArrays_marker (m : Marker Unit) :
    (marker m).emptiesAsArrays = .marker m.emptiesAsArrays := by
  rw [emptiesAsArrays]; rfl

theorem emptiesAsArrays_markers (ms : List (Marker Unit)) : (markers ms).emptiesAsArrays =
    if ms.isEmpty then .array [] else .markers (ms.map MarkerOf.emptiesAsArrays) := by
  rw [emptiesAsArrays]
  congr 2
  exact List.attach_map_val (f := MarkerOf.emptiesAsArrays)

end Value

/-! ## What can be written and read back -/

/-- The name is the one that the descriptor written for it stands for. -/
def ClassFile.Descriptor.Stable (name : String) : Prop := toName (ofName name) = .ok name

open ClassFile (Descriptor.Stable)

/-- The scalar is read back as it is: a character is one unit of 16 bits, and types are named as
their descriptors name them. -/
def Scalar.Portable : Scalar → Prop
  | .char c => c.toNat < 0x10000
  | .enum type _ => Descriptor.Stable type
  | .class name => Descriptor.Stable name
  | _ => True

/-- Types in the scalar are named as their descriptors name them. -/
def Scalar.Named : Scalar → Prop
  | .enum type _ => Descriptor.Stable type
  | .class name => Descriptor.Stable name
  | _ => True

/-- If the scalar is a character, it is one unit of 16 bits. -/
def Scalar.Narrow : Scalar → Prop
  | .char c => c.toNat < 0x10000
  | _ => True

theorem Scalar.portable_iff (s : Scalar) : s.Portable ↔ s.Named ∧ s.Narrow := by
  cases s <;> simp [Portable, Named, Narrow]

/-- What every marker keeps: its type is more than blanks, and no layer names a property twice. -/
structure MarkerOf.WellFormed (m : Marker Unit) : Prop where
  type : Text.isAllBlank m.type = false
  layers : ∀ l ∈ m.properties.layers, Entries.Distinct l

/-- The value is well-formed and made of portable scalars, its markers are of stable types, and it
opens at most `n` markers and arrays at once. -/
inductive Value.Portable : Nat → Value → Prop where
  | scalar {n : Nat} {s : Scalar} (portable : s.Portable) : Portable n (.scalar s)
  | array {n : Nat} {ss : List Scalar} (portable : ∀ s ∈ ss, s.Portable) :
      Portable (n + 1) (.array ss)
  | marker {n : Nat} {m : Marker Unit} (wellFormed : m.WellFormed)
      (stable : Descriptor.Stable m.type)
      (portable : ∀ e ∈ m.properties.resolved, Portable n e.2) : Portable (n + 1) (.marker m)
  | markers {n : Nat} {ms : List (Marker Unit)} (portable : ∀ m ∈ ms, Portable n (.marker m)) :
      Portable (n + 1) (.markers ms)

/-- What comes back is the same as a set in which the same names resolve in the same order, if each
value comes back the same as the one in the set. -/
theorem Properties.rebuilt_same_of {p q : Properties} {f : Value → Value}
    (hd : ∀ l ∈ p.layers, Entries.Distinct l) (hq : q.resolved = p.resolved.mapValues f)
    (h : ∀ e ∈ p.resolved, e.2.rebuilt.same (f e.2) = true) :
    Properties.same p.rebuilt q = true := by
  rw [same_iff, Layered.size, Layered.size, resolved_rebuilt, hq]
  refine ⟨by simp [Entries.mapValues], fun e he => ?_⟩
  obtain ⟨d, hmem, rfl⟩ := List.mem_map.1 he
  refine ⟨f d.2, ?_, h d hmem⟩
  rw [← Layered.get?_resolved, hq]
  exact Entries.get?_mapValues (Layered.distinct_resolved hd) _ hmem

/-- Nothing but the kind of an empty array is lost. -/
theorem Value.Portable.rebuilt_same {n : Nat} {v : Value} (h : v.Portable n) :
    v.rebuilt.same v.emptiesAsArrays = true := by
  induction h with
  | scalar => simp
  | array => simp
  | @marker n m wellFormed _ _ ih =>
    rw [rebuilt_marker, emptiesAsArrays_marker, same_marker, MarkerOf.same_iff]
    exact ⟨rfl, Properties.rebuilt_same_of wellFormed.layers
      (Properties.resolved_emptiesAsArrays _) ih⟩
  | @markers n ms _ ih =>
    rw [rebuilt_markers, emptiesAsArrays_markers]
    split
    next => simp
    next =>
      rw [same_markers, List.forall₂_map_left_iff, List.forall₂_map_right_iff, List.forall₂_same]
      intro m hm
      have := ih m hm
      rwa [rebuilt_marker, emptiesAsArrays_marker, same_marker] at this

/-! ## Values that come back the same -/

/-- No list of markers that is found in the value is empty. -/
inductive Value.Filled : Value → Prop where
  | scalar (s : Scalar) : Filled (.scalar s)
  | array (ss : List Scalar) : Filled (.array ss)
  | marker {m : Marker Unit} (filled : ∀ e ∈ m.properties.resolved, Filled e.2) :
      Filled (.marker m)
  | markers {ms : List (Marker Unit)} (nonempty : ms ≠ []) (filled : ∀ m ∈ ms, Filled (.marker m)) :
      Filled (.markers ms)

/-- Without empty lists of markers nothing is lost. -/
theorem Value.Portable.rebuilt_same_self {n : Nat} {v : Value} (h : v.Portable n)
    (hfilled : v.Filled) : v.rebuilt.same v = true := by
  induction h with
  | scalar => simp
  | array => simp
  | @marker n m wellFormed _ _ ih =>
    obtain _ | _ | ⟨hvalues⟩ := hfilled
    rw [rebuilt_marker, same_marker, MarkerOf.same_iff]
    refine ⟨rfl, Properties.rebuilt_same_of wellFormed.layers (f := id) ?_
      fun e he => ih e he (hvalues e he)⟩
    simp [Entries.mapValues]
  | @markers n ms _ ih =>
    obtain _ | _ | _ | ⟨hnonempty, hmarkers⟩ := hfilled
    rw [rebuilt_markers, if_neg (by simpa using hnonempty), same_markers,
      List.forall₂_map_left_iff, List.forall₂_same]
    intro m hm
    have := ih m hm (hmarkers m hm)
    rwa [rebuilt_marker, same_marker] at this

end MarkerIndex
