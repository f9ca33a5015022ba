/-
Two sources of one class agree. A class that is written as a descriptor and read back, and a host
type of the same name that carries the same markers, report the same markers of the type: of each
type of marker the first one, in the order of the types, with equal properties.

Reading goes through bytes, a table of constants and a stack of frames, and scanning goes along the
chain of the host type; both keep the first marker of each type of one list, so what they do to each
marker on the way can be compared marker by marker.
-/
import MarkerIndex.Host.Findings
import MarkerIndex.Proofs.ClassFile.RoundTrip
import MarkerIndex.Proofs.Host.Attribution

namespace MarkerIndex

/-! ## The first of each type of changed markers -/

namespace Entries

variable {β γ : Type}

theorem insertNew_mapValues (f : β → γ) (es : Entries String β) (key : String) (value : β) :
    (es.mapValues f).insertNew key (f value) = (es.insertNew key value).mapValues f := by
  unfold insertNew
  rw [has_mapValues]
  split
  next => rfl
  next => rw [mapValues, mapValues, List.map_append]; rfl

/-- Changing the values does not change which come first. -/
theorem firsts_mapValues (f : β → γ) (pairs : Entries String β) :
    firsts (pairs.mapValues f) = (firsts pairs).mapValues f := by
  suffices h : ∀ es : Entries String β,
      (pairs.mapValues f).foldl (fun es p => es.insertNew p.1 p.2) (es.mapValues f) =
        (pairs.foldl (fun es p => es.insertNew p.1 p.2) es).mapValues f from h []
  induction pairs with
  | nil => exact fun es => rfl
  | cons p pairs ih =>
    intro es
    have hstep := insertNew_mapValues f es p.1 p.2
    rw [List.foldl_cons, ← ih, ← hstep]
    rfl

end Entries

theorem MarkerOf.firstOfEachType_map {ε δ : Type} (f : Marker ε → Marker δ)
    (htype : ∀ m, (f m).type = m.type) (ms : List (Marker ε)) :
    firstOfEachType (ms.map f) = (firstOfEachType ms).mapValues f := by
  rw [firstOfEachType, firstOfEachType, ← Entries.firsts_mapValues, Entries.mapValues, List.map_map,
    List.map_map]
  congr 1
  refine List.map_congr_left fun m _ => ?_
  show ((f m).type, f m) = (m.type, f m)
  rw [htype]

/-! ## A type without bases -/

namespace Host

variable {g : TypeGraph} {id : TypeId} {t : TypeDecl}

/-- The chain of a type without bases is the type alone, whatever is asked for. -/
theorem TypeGraph.chain_alone (hbase : g.base? id = none) (hinterfaces : g.interfaces id = [])
    (inherits includeRoot : Bool) : g.chain id inherits includeRoot = [id] := by
  have hlineage : g.lineage? id includeRoot = some [id] := by
    rw [lineage?, hbase, climb]
  unfold chain
  split
  next =>
    rw [hlineage, Option.getD_some, withInterfaces, List.foldl_cons, List.foldl_nil, gather,
      hinterfaces, List.foldl_nil]
  next => rfl

/-- A type without bases has the first of its markers of each type, on the type. -/
theorem typeMarkers_alone (ht : g.type? id = some t) (hbase : t.base = none)
    (hinterfaces : t.interfaces = []) (h : Hierarchy) (o : Options) :
    (Findings.ofType g id h o).typeMarkers =
      (MarkerOf.firstOfEachType t.markers).mapValues (·.withElement (some id)) := by
  have hchain : g.chain id o.inherits o.includeRoot = [id] := by
    refine TypeGraph.chain_alone ?_ ?_ _ _
    · rw [TypeGraph.base?, ht]; exact hbase
    · rw [TypeGraph.interfaces, ht]; exact hinterfaces
  have hlinks : g.links [id] = [(id, t)] := by simp [TypeGraph.links, ht]
  show typeMarkersOf (g.links (g.chain id o.inherits o.includeRoot)) = _
  rw [hchain, hlinks, typeMarkersOf, List.flatMap_singleton]
  exact MarkerOf.firstOfEachType_map (fun m : Marker Unit => m.withElement (some id))
    (fun _ => rfl) t.markers

end Host

/-! ## The two sources -/

open ClassFile Host

/-- A class that is read back with these markers has the first of each type, as it comes back. -/
theorem typeMarkers_ofClass (header : Header) (ms : List (Marker Unit)) (early : Bool) :
    (Findings.ofClass
        ⟨header, MarkerOf.firstOfEachType (ms.map MarkerOf.rebuilt), early⟩).typeMarkers =
      (MarkerOf.firstOfEachType ms).mapValues fun m => m.rebuilt.withElement none := by
  show (MarkerOf.firstOfEachType (ms.map MarkerOf.rebuilt)).map
    (fun e => (e.1, e.2.withElement none)) = _
  rw [MarkerOf.firstOfEachType_map MarkerOf.rebuilt (fun _ => rfl), Entries.mapValues, List.map_map]
  rfl

/-- If a class with some visible markers can be written, its bytes are read, and the markers of the
type are those of a host type of the same name with the same markers: the same types of marker in
the same order, each with an equal marker. -/
theorem typeMarkers_agree {name : String} {ms : List (Marker Unit)} {o : Options} {bytes : Bytes}
    (hname : '/' ∉ name.toList) (hportable : ∀ m ∈ ms, (Value.marker m).Portable o.maxNesting)
    (hfilled : ∀ m ∈ ms, (Value.marker m).Filled)
    (hencode : ({ name, visible := ms } : ClassSpec).encode = .ok bytes) :
    ∃ record, ClassRecord.read bytes none o = .ok record ∧
      ∀ (g : TypeGraph) (id : TypeId) (h : Hierarchy) (o' : Options),
        g.type? id = some { name, markers := ms } →
          (Findings.ofType g id h o').typeName = (Findings.ofClass record).typeName ∧
          List.Forall₂ (fun a b => a.1 = b.1 ∧ a.2.same b.2 = true)
            (Findings.ofClass record).typeMarkers (Findings.ofType g id h o').typeMarkers := by
  have hspec : ({ name, visible := ms } : ClassSpec).Portable o := by
    refine ⟨hname, ?_, by simp, by simp, by simpa using hportable⟩
    rintro super ⟨⟩
    decide
  obtain ⟨hread, -⟩ := read_encode hspec hencode
  have htold : ({ name, visible := ms } : ClassSpec).told o = ms := by simp [ClassSpec.told]
  rw [htold] at hread
  refine ⟨_, hread, fun g id h o' ht => ⟨?_, ?_⟩⟩
  · show g.name id = name
    rw [TypeGraph.name, ht]
    rfl
  rw [typeMarkers_ofClass, typeMarkers_alone ht rfl rfl, Entries.mapValues, Entries.mapValues,
    List.forall₂_map_left_iff, List.forall₂_map_right_iff, List.forall₂_same]
  intro e he
  obtain ⟨hmem, -⟩ := MarkerOf.mem_firstOfEachType ms he
  have hsame := (hportable _ hmem).rebuilt_same_self (hfilled _ hmem)
  rw [Value.rebuilt_marker, Value.same_marker] at hsame
  exact ⟨rfl, hsame⟩

/-! ### Two markers of one type -/

/-- Markers of one type with different numbers. -/
def repeatedMarkers : List (Marker Unit) :=
  [⟨"M", ⟨[("x", .scalar (.int 1))], []⟩, none⟩, ⟨"M", ⟨[("x", .scalar (.int 2))], []⟩, none⟩]

theorem repeatedMarkers_encodes :
    ∃ bytes, ({ name := "A", visible := repeatedMarkers } : ClassSpec).encode = .ok bytes := by
  have fits : ∀ s ∈ ["A", "java/lang/Object", "LM;", "x", "RuntimeVisibleAnnotations"],
      (Text.ModifiedUtf8.encode s).length < 65536 := by decide
  have hA : Descriptor.toInternal "A" = "A" := by decide
  have hObject : Descriptor.toInternal "java.lang.Object" = "java/lang/Object" := by decide
  have hM : Descriptor.ofName "M" = "LM;" := by decide
  simp only [List.forall_mem_cons] at fits
  simp [ClassSpec.encode, encodeBody, repeatedMarkers, Interning.className, Interning.text,
    Interning.constant, Interning.typeName, TableBuilder.intern, TableBuilder.checkLength,
    TableBuilder.empty, Constant.slots, Constant.isWide, encodeInterfaces, encodeMembers,
    encodeCount, markerAttribute, visibleMarkers, encodeMarker, encodeProperties_eq, Layered.size,
    Layered.resolved_single, encodeValue, encodeScalar, encodeAttribute,
    encodeTagged, BigEndian.u16, BigEndian.length_encode, StateT.run, Interning.run_bind,
    Interning.run_map, Interning.ok_bind, fits, hA, hObject, hM]

theorem repeatedMarkers_portable : ∀ m ∈ repeatedMarkers, (Value.marker m).Portable 64 := by
  have hblank : Text.isAllBlank "M" = false := by decide
  have hM : Descriptor.Stable "M" := rfl
  have hportable : ∀ n : Int32, (Value.marker
      ⟨"M", ⟨[("x", .scalar (.int n))], []⟩, none⟩).Portable 64 := by
    intro n
    refine .marker ⟨hblank, ?_⟩ hM ?_
    · simp [Layered.layers, Entries.Distinct, Entries.keys]
    · rw [Layered.resolved_single]
      simpa using .scalar trivial
  simpa [repeatedMarkers] using ⟨hportable 1, hportable 2⟩

theorem repeatedMarkers_filled : ∀ m ∈ repeatedMarkers, (Value.marker m).Filled := by
  have hfilled : ∀ n : Int32,
      (Value.marker ⟨"M", ⟨[("x", .scalar (.int n))], []⟩, none⟩).Filled := by
    intro n
    refine .marker ?_
    rw [Layered.resolved_single]
    simpa using .scalar _
  simpa [repeatedMarkers] using ⟨hfilled 1, hfilled 2⟩

/-- The first marker is reported by both sources, and the second one by none. -/
theorem typeMarkers_agree_repeated : ∃ bytes record,
    ({ name := "A", visible := repeatedMarkers } : ClassSpec).encode = .ok bytes ∧
      ClassRecord.read bytes none {} = .ok record ∧
      List.Forall₂ (fun a b => a.1 = b.1 ∧ a.2.same b.2 = true)
        (Findings.ofClass record).typeMarkers
        [("M", ⟨"M", ⟨[("x", .scalar (.int 1))], []⟩, some (0 : TypeId)⟩)] := by
  obtain ⟨bytes, hencode⟩ := repeatedMarkers_encodes
  obtain ⟨record, hread, hagree⟩ := typeMarkers_agree (o := {}) (by decide) repeatedMarkers_portable
    repeatedMarkers_filled hencode
  obtain ⟨-, hmarkers⟩ := hagree ⟨#[{ name := "A", markers := repeatedMarkers }]⟩ 0 .exact {} rfl
  exact ⟨bytes, record, hencode, hread, hmarkers⟩

end MarkerIndex
