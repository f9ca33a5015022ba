/-
What reading makes of a descriptor. However its markers were told, the collector ends with markers
of one layer that names each property once, and with an array for every list that is empty. If the
types named in them are stable, these markers are portable and come back as they are. So a class
that is rebuilt from what was read of a descriptor is read as the same.
-/
import MarkerIndex.Proofs.ClassFile.Acceptance
import MarkerIndex.Proofs.Layered.Listing

namespace MarkerIndex

open ClassFile (Descriptor.Stable)

/-! ## Values that come back as they are -/

namespace Value

/-- The value is portable and comes back as it is. -/
structure Normal (n : Nat) (v : Value) : Prop where
  portable : v.Portable n
  rebuilt : v.rebuilt = v

variable {n : Nat}

theorem normal_scalar {s : Scalar} (h : s.Portable) : (scalar s).Normal n :=
  ⟨.scalar h, rebuilt_scalar s⟩

theorem normal_array {ss : List Scalar} (h : ∀ s ∈ ss, s.Portable) : (array ss).Normal (n + 1) :=
  ⟨.array h, rebuilt_array ss⟩

theorem Normal.rebuilt_marker {m : Marker Unit} (h : (marker m).Normal n) : m.rebuilt = m := by
  have hback := h.rebuilt
  rw [Value.rebuilt_marker] at hback
  exact marker.inj hback

theorem normal_markers {ms : List (Marker Unit)} (hne : ms ≠ [])
    (h : ∀ m ∈ ms, (marker m).Normal n) : (markers ms).Normal (n + 1) := by
  constructor
  · exact .markers fun m hm => (h m hm).portable
  · have hback : ms.map MarkerOf.rebuilt = ms.map id :=
      List.map_congr_left fun m hm => (h m hm).rebuilt_marker
    rw [rebuilt_markers, if_neg (by simpa using hne), hback, List.map_id]

end Value

/-- The properties of a marker of one layer, each named once and each normal. -/
structure NormalEntries (n : Nat) (own : Entries String Value) : Prop where
  distinct : own.Distinct
  normal : ∀ e ∈ own, e.2.Normal n

namespace NormalEntries

variable {n : Nat} {own : Entries String Value}

theorem empty (n : Nat) : NormalEntries n [] where
  distinct := List.nodup_nil
  normal := by simp

theorem insert {value : Value} (h : NormalEntries n own) (name : String) (hv : value.Normal n) :
    NormalEntries n (own.insert name value) where
  distinct := h.distinct.insert name value
  normal := Entries.forall_insert h.normal hv

theorem mapValues_rebuilt (h : NormalEntries n own) : own.mapValues Value.rebuilt = own := by
  have hback : ∀ e ∈ own, (e.1, e.2.rebuilt) = id e :=
    fun e he => Prod.ext rfl (h.normal e he).rebuilt
  unfold Entries.mapValues
  rw [List.map_congr_left hback, List.map_id]

theorem marker {type : String} (h : NormalEntries n own) (hb : Text.isAllBlank type = false)
    (hs : Descriptor.Stable type) : (Value.marker ⟨type, ⟨own, []⟩, none⟩).Normal (n + 1) := by
  constructor
  · refine .marker ⟨hb, ?_⟩ hs ?_
    · intro l hl
      rw [List.mem_singleton.1 hl]
      exact h.distinct
    · rw [Layered.resolved_single]
      exact fun e he => (h.normal e he).portable
  · rw [Value.rebuilt_marker, MarkerOf.rebuilt, Properties.rebuilt_eq, Layered.resolved_single,
      h.mapValues_rebuilt]

end NormalEntries

/-! ## Types that are named -/

/-- The types that a scalar names. -/
def Scalar.types : Scalar → List String
  | .enum type _ => [type]
  | .class name => [name]
  | _ => []

theorem Scalar.portable_of_types {s : Scalar} (h : ∀ type ∈ s.types, Descriptor.Stable type)
    (hs : s.Narrow) : s.Portable := by
  rw [portable_iff]
  refine ⟨?_, hs⟩
  cases s with
  | enum type constant => exact h type (List.mem_singleton.2 rfl)
  | «class» name => exact h name (List.mem_singleton.2 rfl)
  | _ => trivial

namespace ClassFile

/-- The types that are named when the event is told: that of a marker, of an enum constant, or of a
class literal. -/
def Event.types : Event → List String
  | .markerStart type _ _ => [type]
  | .value _ s => s.types
  | _ => []

/-- All types named in the events are stable. -/
def StableTypes (es : List Event) : Prop := ∀ e ∈ es, ∀ type ∈ e.types, Descriptor.Stable type

/-! ## What the collector makes of a marker -/

namespace Collector

variable {n : Nat} {es : List Event}

theorem closeMarker_goes {c c' : Collector} {type : String} {property : Option String}
    {properties : Properties} {rest : List Frame} (h : closeMarker none
      { c with frames := .marker type property properties :: rest } = (true, c')) :
    Text.isAllBlank type = false ∧
      file ⟨type, properties, none⟩ property { c with frames := rest } = (true, c') := by
  have hb : Text.isAllBlank type = false := by
    rw [Bool.eq_false_iff]
    intro hb
    unfold closeMarker MarkerOf.make at h
    simp only [hb, if_pos] at h
    cases h
  rw [closeMarker_none hb] at h
  exact ⟨hb, h⟩

/-- When the collector goes on after a part of a marker, it has filed a normal marker, placed a
normal value, or gone on with the normal properties or elements of what is open. -/
def Collects (n : Nat) (es : List Event) : Form → Prop
  | .marker property => ∀ c c' : Collector, (visitor none).hear es c = (true, c') →
      ∃ m : Marker Unit, (Value.marker m).Normal n ∧ c.file m property = (true, c')
  | .content property => ∀ c c' : Collector, c.frames ≠ [] →
      (visitor none).hear es c = (true, c') →
      ∃ v : Value, v.Normal n ∧ c.place property v = (true, c')
  | .properties => ∀ (c c' : Collector) type outer own rest, NormalEntries n own →
      (visitor none).hear es { c with frames := .marker type outer ⟨own, []⟩ :: rest } =
        (true, c') →
      ∃ own', NormalEntries n own' ∧
        c' = { c with frames := .marker type outer ⟨own', []⟩ :: rest }
  | .elements => ∀ (c c' : Collector) name (scalars : Array Scalar) (markers : Array (Marker Unit))
      rest, (∀ s ∈ scalars, s.Portable) → (∀ m ∈ markers, (Value.marker m).Normal n) →
      (visitor none).hear es { c with frames := .array name scalars markers :: rest } = (true, c') →
      ∃ (scalars' : Array Scalar) (markers' : Array (Marker Unit)),
        (∀ s ∈ scalars', s.Portable) ∧ (∀ m ∈ markers', (Value.marker m).Normal n) ∧
        c' = { c with frames := .array name scalars' markers' :: rest }

theorem collects_marker {type : String} {property : Option String} {visible : Bool}
    (htype : Descriptor.Stable type) (h : Collects n es .properties) :
    Collects (n + 1) (.markerStart type property visible :: (es ++ [.markerEnd type]))
      (.marker property) := by
  intro c c' hgoes
  obtain ⟨mid, hstart, hgoes⟩ := hear_cons_goes.1 hgoes
  cases hstart
  obtain ⟨mid, hes, hend⟩ := Visitor.hear_append_goes.1 hgoes
  obtain ⟨own, hown, rfl⟩ := h c mid type property [] c.frames (.empty n) hes
  rw [Visitor.hear_singleton (by simp)] at hend
  obtain ⟨hb, hfile⟩ := closeMarker_goes hend
  exact ⟨_, hown.marker hb htype, hfile⟩

theorem collects_array {name : String} (h : Collects n es .elements) :
    Collects (n + 1) (.arrayStart name :: (es ++ [.arrayEnd name])) (.content (some name)) := by
  intro c c' _ hgoes
  obtain ⟨mid, hstart, hgoes⟩ := hear_cons_goes.1 hgoes
  cases hstart
  obtain ⟨mid, hes, hend⟩ := Visitor.hear_append_goes.1 hgoes
  obtain ⟨scalars, markers, hscalars, hmarkers, rfl⟩ :=
    h c mid name #[] #[] c.frames (by simp) (by simp) hes
  rw [Visitor.hear_singleton (by simp)] at hend
  refine ⟨arrayValue scalars markers, ?_, hend⟩
  unfold arrayValue
  split
  next => exact Value.normal_array fun s hs => hscalars s (Array.mem_toList_iff.1 hs)
  next hne =>
    refine Value.normal_markers ?_ fun m hm => hmarkers m (Array.mem_toList_iff.1 hm)
    simpa using hne

/-- A value goes into the open marker under its name. -/
theorem collects_property {name : String} {es' : List Event}
    (h : Collects n es (.content (some name))) (h' : Collects n es' .properties) :
    Collects n (es ++ es') .properties := by
  intro c c' type outer own rest hown hgoes
  obtain ⟨mid, hes, hes'⟩ := Visitor.hear_append_goes.1 hgoes
  obtain ⟨v, hv, hplace⟩ := h _ mid (by simp) hes
  cases hplace
  exact h' c c' type outer (own.insert name v) rest (hown.insert name hv) hes'

/-- A value goes to the end of the open array, if the array takes it. -/
theorem collects_element {es' : List Event} (h : Collects n es (.content none))
    (h' : Collects n es' .elements) : Collects n (es ++ es') .elements := by
  intro c c' name scalars markers rest hscalars hmarkers hgoes
  obtain ⟨mid, hes, hes'⟩ := Visitor.hear_append_goes.1 hgoes
  obtain ⟨v, hv, hplace⟩ := h _ mid (by simp) hes
  unfold place at hplace
  dsimp only at hplace
  split at hplace
  next s _ =>
    cases hplace
    obtain ⟨hs⟩ := hv.portable
    refine h' c c' name (scalars.push s) markers rest ?_ hmarkers hes'
    intro s' hs'
    obtain hs' | rfl := Array.mem_push.1 hs'
    · exact hscalars s' hs'
    · exact hs
  next m _ =>
    cases hplace
    refine h' c c' name scalars (markers.push m) rest hscalars ?_ hes'
    intro m' hm'
    obtain hm' | rfl := Array.mem_push.1 hm'
    · exact hmarkers m' hm'
    · exact hv
  next => cases hplace

/-- Of a part of a marker with stable types the collector makes what is normal. -/
theorem collects {visible : Bool} {form : Form} (h : Sized visible n form es)
    (hstable : StableTypes es) : Collects n es form := by
  induction h with
  | @marker n type property es _ ih =>
    have htype : Descriptor.Stable type :=
      hstable _ List.mem_cons_self type (List.mem_singleton.2 rfl)
    refine collects_marker htype (ih ?_)
    intro e he
    exact hstable e (by simp [he])
  | @value n property s hs =>
    intro c c' _ hgoes
    rw [Visitor.hear_singleton (by simp)] at hgoes
    have hportable : s.Portable :=
      Scalar.portable_of_types (hstable _ (List.mem_singleton.2 rfl)) hs
    exact ⟨.scalar s, Value.normal_scalar hportable, hgoes⟩
  | nested _ ih =>
    intro c c' hframes hgoes
    obtain ⟨m, hm, hfile⟩ := ih hstable c c' hgoes
    rw [file_eq_place hframes] at hfile
    exact ⟨.marker m, hm, hfile⟩
  | array _ ih =>
    refine collects_array (ih ?_)
    intro e he
    exact hstable e (by simp [he])
  | noProperties =>
    intro c c' type outer own rest hown hgoes
    cases hgoes
    exact ⟨own, hown, rfl⟩
  | property _ _ ih ih' =>
    obtain ⟨hes, hes'⟩ := List.forall_mem_append.1 hstable
    exact collects_property (ih hes) (ih' hes')
  | noElements =>
    intro c c' name scalars markers rest hscalars hmarkers hgoes
    cases hgoes
    exact ⟨scalars, markers, hscalars, hmarkers, rfl⟩
  | element _ _ ih ih' =>
    obtain ⟨hes, hes'⟩ := List.forall_mem_append.1 hstable
    exact collects_element (ih hes) (ih' hes')

/-! ## What is filed -/

/-- Markers filed under their types, one of each type, and all normal. -/
structure NormalFiled (n : Nat) (filed : Entries String (Marker Unit)) : Prop where
  distinct : filed.Distinct
  type : ∀ e ∈ filed, e.1 = e.2.type
  normal : ∀ e ∈ filed, (Value.marker e.2).Normal n

theorem NormalFiled.insertNew {filed : Entries String (Marker Unit)} {m : Marker Unit}
    (h : NormalFiled n filed) (hm : (Value.marker m).Normal n) :
    NormalFiled n (filed.insertNew m.type m) := by
  refine ⟨h.distinct.insertNew _ _, ?_, ?_⟩
  · unfold Entries.insertNew
    split
    next => exact h.type
    next => exact List.forall_mem_append.2 ⟨h.type, by simp⟩
  · unfold Entries.insertNew
    split
    next => exact h.normal
    next => exact List.forall_mem_append.2 ⟨h.normal, by simpa using hm⟩

/-- Of markers with stable types the collector files normal ones. -/
theorem files {c c' : Collector} (h : SizedMarkers n es) (hstable : StableTypes es)
    (hframes : c.frames = []) (hfiled : NormalFiled n c.filed)
    (hgoes : (visitor none).hear es c = (true, c')) :
    c'.header = c.header ∧ NormalFiled n c'.filed := by
  induction h generalizing c with
  | nil =>
    cases hgoes
    exact ⟨rfl, hfiled⟩
  | cons hes _ ih =>
    obtain ⟨hstable, hstable'⟩ := List.forall_mem_append.1 hstable
    obtain ⟨mid, hes', hgoes⟩ := Visitor.hear_append_goes.1 hgoes
    obtain ⟨m, hm, hfile⟩ := collects hes hstable c mid hes'
    unfold file at hfile
    rw [hframes] at hfile
    cases hfile
    exact ih (c := { c with frames := [], filed := c.filed.insertNew m.type m }) hstable' rfl
      (hfiled.insertNew hm) hgoes

end Collector

/-! ## What is read -/

section Reading

variable {o : Options} {data : Bytes} {record : ClassRecord}

/-- What is read without a target is what the collector makes of all that it hears. -/
theorem collected_of_read (hread : ClassRecord.read data none o = .ok record) :
    ∃ header ms c, header.Dotted ∧ SizedMarkers o.maxNesting ms ∧
      heard o (Collector.visitor none) data {} = .header header :: (ms ++ [.finish]) ∧
      (Collector.visitor none).hear ms { header := some header } = (true, c) ∧
      c.header = some record.header ∧ c.filed = record.markers ∧ record.endedEarly = false := by
  obtain ⟨es, answer, rest, htells, hscript, hparts⟩ := exists_parts o data
  have hreading := reading htells hscript none
  rw [hread] at hreading
  cases hreading with
  | reached _ htarget => cases htarget
  | @whole c header ha hgoes hheader =>
    obtain ⟨word, ⟨header', ms, hdotted, hms, rfl⟩, rfl⟩ := hparts ha
    have hheard := htells.heard_of_goes hgoes
    -- The header is taken as it is, and the finish changes nothing.
    obtain ⟨mid, hword, hfinish⟩ := Visitor.hear_append_goes.1 hgoes
    obtain ⟨first, hvisit, hmarkers⟩ := Collector.hear_cons_goes.1 hword
    cases hvisit
    cases hfinish
    exact ⟨header', ms, mid, hdotted, hms, hheard, hmarkers, hheader, rfl, rfl⟩

/-- What was read has a header with points for slashes and normal markers under their types, and
nothing was left out. -/
structure ClassRecord.Normal (n : Nat) (r : ClassRecord) : Prop where
  header : r.header.Dotted
  markers : Collector.NormalFiled n r.markers
  endedEarly : r.endedEarly = false

/-- What is read of any descriptor with stable types is normal. -/
theorem normal_of_read (hread : ClassRecord.read data none o = .ok record)
    (hstable : StableTypes (heard o (Collector.visitor none) data {})) :
    record.Normal o.maxNesting := by
  obtain ⟨header, ms, c, hdotted, hms, hheard, hgoes, hheader, hfiled, hended⟩ :=
    collected_of_read hread
  rw [hheard] at hstable
  have hstable : StableTypes ms := fun e he => hstable e (by simp [he])
  have hempty : Collector.NormalFiled o.maxNesting [] := ⟨List.nodup_nil, by simp, by simp⟩
  obtain ⟨hkept, hnormal⟩ := Collector.files hms hstable rfl hempty hgoes
  have hsame : record.header = header := Option.some.inj (hheader.symm.trans hkept)
  constructor
  · rw [hsame]
    exact hdotted
  · rw [← hfiled]
    exact hnormal
  · exact hended

end Reading

/-! ## What is written again -/

namespace ClassRecord

/-- The class of what was read, with its markers visible and nothing else in it. -/
def spec (r : ClassRecord) : ClassSpec where
  name := r.header.name
  super := r.header.super
  interfaces := r.header.interfaces
  flags := r.header.flags
  major := r.header.major
  minor := r.header.minor
  visible := r.markers.values

variable {n : Nat} {r : ClassRecord}

theorem told_spec (r : ClassRecord) (o : Options) : r.spec.told o = r.markers.values := by
  simp [spec, ClassSpec.told]

theorem Normal.portable {o : Options} (h : r.Normal o.maxNesting) : r.spec.Portable o where
  name := h.header.name
  super := h.header.super
  interfaces := h.header.interfaces
  attributes := by simp [spec]
  markers := by
    intro m hm
    have hm : m ∈ r.markers.values := by simpa [spec] using hm
    obtain ⟨e, he, rfl⟩ := List.mem_map.1 hm
    exact (h.markers.normal e he).portable

end ClassRecord

/-- Normal markers are filed again under their types, in the same order. -/
theorem Collector.NormalFiled.refiled {n : Nat} {filed : Entries String (Marker Unit)}
    (h : NormalFiled n filed) :
    MarkerOf.firstOfEachType (filed.values.map MarkerOf.rebuilt) = filed := by
  have hback : ∀ e ∈ filed, (e.2.rebuilt.type, e.2.rebuilt) = id e := by
    intro e he
    rw [(h.normal e he).rebuilt_marker]
    exact Prod.ext (h.type e he).symm rfl
  have hpairs : (filed.values.map MarkerOf.rebuilt).map (fun m => (m.type, m)) = filed := by
    rw [Entries.values, List.map_map, List.map_map]
    exact (List.map_congr_left hback).trans (List.map_id filed)
  rw [MarkerOf.firstOfEachType, hpairs]
  exact Layered.firsts_of_distinct h.distinct

/-- The bytes of a class that is rebuilt from what was read are read as the same. -/
theorem read_rebuilt {o : Options} {bytes : Bytes} {record : ClassRecord}
    (h : record.Normal o.maxNesting) (hbytes : record.spec.encode = .ok bytes) :
    ClassRecord.read bytes none o = .ok record := by
  obtain ⟨cs, table, p, htable, hp, rfl⟩ := encode_spells h.portable hbytes
  rw [read_of_takes (takes_class htable hp), ClassRecord.told_spec, h.markers.refiled]
  obtain ⟨header, markers, endedEarly⟩ := record
  cases h.endedEarly
  rfl

/-- Rebuilding normalises. If no internal name of a type in a descriptor ends in a pair of brackets,
the class rebuilt from what is read of it is read as the same, whenever it can be written. -/
theorem read_rebuilt_of_read {o : Options} {data bytes : Bytes} {record : ClassRecord}
    (hread : ClassRecord.read data none o = .ok record)
    (hplain : ∀ e ∈ heard o (Collector.visitor none) data {}, ∀ type ∈ e.types,
      Descriptor.Plain type)
    (hbytes : record.spec.encode = .ok bytes) : ClassRecord.read bytes none o = .ok record := by
  have hstable : StableTypes (heard o (Collector.visitor none) data {}) :=
    fun e he type htype => (hplain e he type htype).stable
  exact read_rebuilt (normal_of_read hread hstable) hbytes

/-! ### A class that is not told as it would be written -/

/-- A class `A` with a marker whose type `int` is told by the descriptor `Lint;`, and whose property
`x` is told twice. -/
def untidyClass : Bytes :=
  [0xCA, 0xFE, 0xBA, 0xBE, 0, 0, 0, 0x34, 0, 6, 1, 0, 1, 0x41, 7, 0, 1, 1, 0, 25] ++
    visibleMarkers.toList.map (fun c => UInt8.ofNat c.toNat) ++
  [1, 0, 5, 0x4C, 0x69, 0x6E, 0x74, 0x3B, 1, 0, 1, 0x78, 0, 0x21, 0, 2, 0, 0, 0, 0,
    0, 0, 0, 0, 0, 1, 0, 3, 0, 0, 0, 16, 0, 1, 0, 4, 0, 2, 0, 5, 0x73, 0, 5, 0, 5, 0x73, 0, 1]

/-- What is read of it: the second value of `x` counts. -/
def tidyRecord : ClassRecord :=
  ⟨⟨0, 52, 0x21, "A", none, []⟩, [("int", ⟨"int", ⟨[("x", .scalar (.string "A"))], []⟩, none⟩)],
    false⟩

set_option maxRecDepth 4000 in
theorem heard_untidyClass : heard {} (Collector.visitor none) untidyClass {} =
    .header tidyRecord.header :: ([.markerStart "int" none true, .value (some "x") (.string "x"),
      .value (some "x") (.string "A"), .markerEnd "int"] ++ [.finish]) := by decide +kernel

set_option maxRecDepth 4000 in
theorem read_untidyClass : ClassRecord.read untidyClass none {} = .ok tidyRecord := by
  have hok : (ClassRecord.read untidyClass none {}).isOk = true := by decide +kernel
  rcases hread : ClassRecord.read untidyClass none {} with f | record
  · rw [hread] at hok
    cases hok
  obtain ⟨header, ms, c, -, -, hheard, hgoes, hheader, hfiled, hended⟩ := collected_of_read hread
  rw [heard_untidyClass] at hheard
  obtain ⟨hfirst, hms⟩ := List.cons.inj hheard
  cases hfirst
  rw [← List.append_cancel_right hms] at hgoes
  cases hgoes
  obtain ⟨header, markers, endedEarly⟩ := record
  cases hheader
  cases hfiled
  cases hended
  rfl

theorem tidyRecord_encodes : ∃ bytes, tidyRecord.spec.encode = .ok bytes := by
  have fits : ∀ s ∈ ["A", "I", "x", "RuntimeVisibleAnnotations"],
      (Text.ModifiedUtf8.encode s).length < 65536 := by decide
  have hA : Descriptor.toInternal "A" = "A" := by decide
  have hint : Descriptor.ofName "int" = "I" := by decide
  simp only [List.forall_mem_cons] at fits
  simp [ClassSpec.encode, encodeBody, tidyRecord, ClassRecord.spec, Entries.values,
    Interning.className, Interning.text,
    Interning.constant, Interning.typeName, TableBuilder.intern, TableBuilder.checkLength,
    TableBuilder.empty, Constant.slots, Constant.isWide, encodeInterfaces, encodeMembers,
    encodeCount, markerAttribute, visibleMarkers, encodeMarker, encodeProperties_eq, Layered.size,
    Layered.resolved_single, encodeValue, encodeScalar, encodeAttribute,
    encodeTagged, BigEndian.u16, BigEndian.length_encode, StateT.run, Interning.run_bind,
    Interning.run_map, Interning.ok_bind, fits, hA, hint]

theorem read_rebuilt_of_read_untidyClass : ∃ bytes, tidyRecord.spec.encode = .ok bytes ∧
    ClassRecord.read bytes none {} = .ok tidyRecord := by
  obtain ⟨bytes, hbytes⟩ := tidyRecord_encodes
  refine ⟨bytes, hbytes, read_rebuilt_of_read read_untidyClass ?_ hbytes⟩
  have hint : Descriptor.Plain "int" := ⟨"Lint;", by decide, by decide⟩
  rw [heard_untidyClass]
  simp [Event.types, Scalar.types, hint]

end ClassFile

end MarkerIndex
