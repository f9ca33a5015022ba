/-
Whether a marker of a type is present. An index can be asked for one type, for all types, for the
markers of a type on each sort of element, and whether anything was found at all; the answers are
read off the findings, the groups by type, and the groups by type of what is on parameters. They
agree because the groups have no empty group, and because neither source finds a member without a
marker, or lists one for its parameters without a marker on any of them.
-/
import MarkerIndex.Proofs.ClassFile.Declining
import MarkerIndex.Proofs.Index.Groups

namespace MarkerIndex

open Host

/-! ## Nothing is found without a marker -/

namespace Host

theorem attach_eq_nil_iff {ε : Type} {markers : List (Marker Unit)} {element : ε} :
    attach markers element = [] ↔ markers = [] := by
  have htypes : ∀ type, type ∈ (attach markers element).map (·.type) ↔
      type ∈ markers.map (·.type) := fun _ => mem_types_attach
  rw [← List.map_eq_nil_iff (f := (·.type)), ← List.map_eq_nil_iff (f := (·.type)) (l := markers),
    List.eq_nil_iff_forall_not_mem, List.eq_nil_iff_forall_not_mem]
  simp only [htypes]

theorem parameterMarkers_flatten_ne_nil {ps : List Parameter} (h : anyMarked ps = true) :
    (parameterMarkers ps).flatten ≠ [] := by
  obtain ⟨p, hp, hmarked⟩ := List.any_eq_true.1 h
  have hmarkers : attach p.markers p ≠ [] := by
    rw [Ne, attach_eq_nil_iff]
    simpa using hmarked
  intro hnil
  exact hmarkers (List.flatten_eq_nil_iff.1 hnil _ (List.mem_map_of_mem hp))

/-- Every member is found with a marker, and every member that is listed for its parameters with a
marker on one of them. -/
structure Findings.Filled (f : Findings) : Prop where
  fields : ∀ e ∈ f.fields, e.2 ≠ []
  methods : ∀ e ∈ f.methods, e.2 ≠ []
  constructors : ∀ e ∈ f.constructors, e.2 ≠ []
  methodParameters : ∀ e ∈ f.methodParameters, e.2.flatten ≠ []
  constructorParameters : ∀ e ∈ f.constructorParameters, e.2.flatten ≠ []

namespace MemberTable

variable {μ κ β : Type} [Identified μ κ] [DecidableEq κ]

/-- What holds of the data of every marked member holds of the data that a scan finds. -/
theorem forall_scan {P : β → Prop} {members : List μ} {marked : μ → Bool} {data : μ → β}
    (h : ∀ m, marked m = true → P (data m)) : ∀ e ∈ scan members marked data, P e.2 := by
  intro e he
  obtain ⟨-, hmarked, hdata⟩ := (scan_spec members marked data).2 e he
  rw [hdata]
  exact h e.1 hmarked

/-- A leaf without markers is passed over, and the markers of another one are put in the place of
markers or behind them. -/
theorem resolve_ne_nil (rule : OverrideRule) (chain : List TypeDecl) :
    ∀ e ∈ rule.resolve chain, e.2 ≠ [] := by
  unfold OverrideRule.resolve
  refine List.foldlRecOn (motive := fun t : MemberTable Method (List (Marker Method)) =>
    ∀ e ∈ t, e.2 ≠ []) _ _ (by simp) ?_
  intro t ht leaf _
  dsimp only
  split
  next => exact ht
  next hmarkers =>
    intro e he
    rcases mem_insert he with he | ⟨-, hdata⟩
    · exact ht e he
    · rw [hdata]
      simpa using hmarkers

end MemberTable

theorem Findings.filled_ofChain (typeName : String) (chain : List (TypeId × TypeDecl))
    (rule : OverrideRule) : (Findings.ofChain typeName chain rule).Filled where
  fields := by
    refine MemberTable.forall_scan (P := (· ≠ [])) fun f hf => ?_
    simpa [attach_eq_nil_iff] using hf
  methods := MemberTable.resolve_ne_nil rule _
  constructors := by
    refine MemberTable.forall_scan (P := (· ≠ [])) fun c hc => ?_
    simpa [attach_eq_nil_iff] using hc
  methodParameters :=
    MemberTable.forall_scan (P := fun places : ParameterMarkers => List.flatten places ≠ [])
      fun _ hm => parameterMarkers_flatten_ne_nil hm
  constructorParameters :=
    MemberTable.forall_scan (P := fun places : ParameterMarkers => List.flatten places ≠ [])
      fun _ hc => parameterMarkers_flatten_ne_nil hc

/-- A class descriptor has no members. -/
theorem Findings.filled_ofClass (record : ClassFile.ClassRecord) :
    (Findings.ofClass record).Filled := by
  constructor <;> simp [Findings.ofClass]

end Host

/-! ## Groups by type -/

theorem nodup_distinct (names : List String) : (distinct names).Nodup := by
  refine List.foldlRecOn (motive := List.Nodup) names _ List.nodup_nil ?_
  intro found hfound name _
  split
  next => exact hfound
  next hnew => exact hfound.append (List.nodup_singleton name) (by simpa using hnew)

theorem distinct_eq_nil_iff {names : List String} : distinct names = [] ↔ names = [] := by
  rw [List.eq_nil_iff_forall_not_mem, List.eq_nil_iff_forall_not_mem]
  simp only [mem_distinct]

section Groups

variable {μ ε : Type} {type : String}

/-- There is a group of each type that a marker has. -/
theorem mem_keys_groupByType {ms : List (Marker ε)} :
    type ∈ (groupByType ms).keys ↔ ∃ m ∈ ms, m.type = type := by
  rw [← Entries.has_iff_mem_keys, groupByType]
  suffices h : ∀ groups : Entries String (List (Marker ε)),
      (ms.foldl (fun groups m => groups.alter m.type [] (· ++ [m])) groups).has type = true ↔
        groups.has type = true ∨ ∃ m ∈ ms, m.type = type by
    exact (h []).trans (or_iff_right (by simp [Entries.has, Entries.get?]))
  induction ms with
  | nil => simp
  | cons m ms ih =>
    intro groups
    rw [List.foldl_cons, ih, Entries.alter, Entries.has_insert, Bool.or_eq_true, decide_eq_true_eq,
      List.exists_mem_cons_iff, or_assoc, @eq_comm _ type]

/-- No group is empty. -/
theorem mem_keys_groupByType_iff {ms : List (Marker ε)} :
    type ∈ (groupByType ms).keys ↔ ((groupByType ms).get? type).getD [] ≠ [] := by
  rw [mem_keys_groupByType, get?_groupByType, Ne, List.filter_eq_nil_iff]
  simp

/-- There is a group of each type that a marker on a parameter has. -/
theorem mem_keys_groupPlaces {t : MemberTable μ ParameterMarkers} :
    type ∈ (groupPlaces t).keys ↔ ∃ m ∈ t.flatMap fun e => e.2.flatten, m.type = type := by
  have hkeys : (groupPlaces t).keys = distinct ((t.flatMap fun e => e.2.flatten).map (·.type)) := by
    rw [groupPlaces, Entries.keys, List.map_map]
    exact List.map_id _
  rw [hkeys, mem_distinct, List.mem_map]

/-- No group lists no member. -/
theorem mem_keys_groupPlaces_iff {t : MemberTable μ ParameterMarkers} :
    type ∈ (groupPlaces t).keys ↔ ((groupPlaces t).get? type).getD [] ≠ [] := by
  rw [mem_keys_groupPlaces, get?_groupPlaces, filterPlaces_eq, Ne, List.map_eq_nil_iff,
    List.filter_eq_nil_iff]
  simp only [List.any_eq_true, decide_eq_true_eq, List.mem_flatMap, List.mem_flatten]
  push Not
  constructor
  · rintro ⟨m, ⟨e, he, place, hplace, hm⟩, htype⟩
    exact ⟨e, he, place, hplace, m, hm, htype⟩
  · rintro ⟨e, he, place, hplace, m, hm, htype⟩
    exact ⟨m, ⟨e, he, place, hplace, hm⟩, htype⟩

/-- Where no entry of a table is without a marker, there is no type only if there is no entry. -/
theorem types_eq_nil_iff {ρ : Type} {t : List ρ} {markers : ρ → List (Marker ε)}
    {types : List String} (htypes : ∀ {type}, type ∈ types ↔ ∃ m ∈ t.flatMap markers, m.type = type)
    (h : ∀ e ∈ t, markers e ≠ []) : types = [] ↔ t = [] := by
  constructor
  · rintro rfl
    refine List.eq_nil_iff_forall_not_mem.2 fun e he => ?_
    obtain ⟨m, hm⟩ := List.exists_mem_of_ne_nil _ (h e he)
    cases htypes.2 ⟨m, List.mem_flatMap.2 ⟨e, he, hm⟩, rfl⟩
  · rintro rfl
    refine List.eq_nil_iff_forall_not_mem.2 fun type htype => ?_
    obtain ⟨m, ⟨⟩, -⟩ := htypes.1 htype

end Groups

/-! ## The ways of asking -/

namespace Index

/-- The ways of asking whether markers are present agree. -/
structure Agrees (x : Index) : Prop where
  /-- A type is present if it is among all types. -/
  listed : ∀ type, x.hasMarker type = true ↔ type ∈ x.markerTypes
  /-- A type is present if some element has a marker of it. -/
  found : ∀ type, x.hasMarker type = true ↔
    (x.classMarker? type).isSome = true ∨ x.fieldMarkers type ≠ [] ∨ x.methodMarkers type ≠ [] ∨
      x.constructorMarkers type ≠ [] ∨ x.methodPlaces type ≠ [] ∨ x.constructorPlaces type ≠ []
  once : x.markerTypes.Nodup
  empty : x.isEmpty = true ↔ x.markerTypes = []

theorem hasMarker_iff_mem_markerTypes (x : Index) (type : String) :
    x.hasMarker type = true ↔ type ∈ x.markerTypes := by
  rw [hasMarker, markerTypes, mem_distinct]
  simp only [Bool.or_eq_true, Entries.has_iff_mem_keys, List.mem_append]

/-- An index of findings in which nothing is without a marker answers all questions alike. -/
theorem agrees_ofFindings {found : Findings} (h : found.Filled) (source : Source) :
    (ofFindings found source).Agrees where
  listed := hasMarker_iff_mem_markerTypes _
  found type := by
    have hclass : type ∈ found.typeMarkers.keys ↔
        ((ofFindings found source).classMarker? type).isSome = true :=
      Entries.has_iff_mem_keys.symm
    have hfields : type ∈ (ofFindings found source).fieldsByType.keys ↔
        (ofFindings found source).fieldMarkers type ≠ [] := mem_keys_groupByType_iff
    have hmethods : type ∈ (ofFindings found source).methodsByType.keys ↔
        (ofFindings found source).methodMarkers type ≠ [] := mem_keys_groupByType_iff
    have hconstructors : type ∈ (ofFindings found source).constructorsByType.keys ↔
        (ofFindings found source).constructorMarkers type ≠ [] := mem_keys_groupByType_iff
    have hmethodPlaces : type ∈ (ofFindings found source).methodPlacesByType.keys ↔
        (ofFindings found source).methodPlaces type ≠ [] := mem_keys_groupPlaces_iff
    have hconstructorPlaces : type ∈ (ofFindings found source).constructorPlacesByType.keys ↔
        (ofFindings found source).constructorPlaces type ≠ [] := mem_keys_groupPlaces_iff
    rw [← hclass, ← hfields, ← hmethods, ← hconstructors, ← hmethodPlaces, ← hconstructorPlaces]
    simp only [hasMarker, Bool.or_eq_true, Entries.has_iff_mem_keys, or_assoc]
    rfl
  once := nodup_distinct _
  empty := by
    have htypes : found.typeMarkers.keys = [] ↔ found.typeMarkers = [] := List.map_eq_nil_iff
    have hfields : (ofFindings found source).fieldsByType.keys = [] ↔ found.fields = [] :=
      types_eq_nil_iff mem_keys_groupByType h.fields
    have hmethods : (ofFindings found source).methodsByType.keys = [] ↔ found.methods = [] :=
      types_eq_nil_iff mem_keys_groupByType h.methods
    have hconstructors : (ofFindings found source).constructorsByType.keys = [] ↔
        found.constructors = [] := types_eq_nil_iff mem_keys_groupByType h.constructors
    have hmethodPlaces : (ofFindings found source).methodPlacesByType.keys = [] ↔
        found.methodParameters = [] := types_eq_nil_iff mem_keys_groupPlaces h.methodParameters
    have hconstructorPlaces : (ofFindings found source).constructorPlacesByType.keys = [] ↔
        found.constructorParameters = [] :=
      types_eq_nil_iff mem_keys_groupPlaces h.constructorParameters
    rw [markerTypes, distinct_eq_nil_iff]
    simp only [List.append_eq_nil_iff, hfields, hmethods, hconstructors, hmethodPlaces,
      hconstructorPlaces, isEmpty, Bool.and_eq_true, List.isEmpty_iff]
    exact and_congr (and_congr (and_congr (and_congr (and_congr htypes.symm Iff.rfl) Iff.rfl)
      Iff.rfl) Iff.rfl) Iff.rfl

/-- Of a host type and of a class descriptor alike: a marker type is present exactly if it is listed
among all types, and exactly if some element has a marker of it; no type is listed twice; and nothing
was found exactly if no type is listed. -/
theorem presence_agrees :
    (∀ (g : TypeGraph) (id : TypeId) (h : Hierarchy) (o : Options), (ofType g id h o).Agrees) ∧
    ∀ (data : Bytes) (target : Option String) (o : Options) (x : Index),
      ofClass data target o = .ok x → x.Agrees := by
  constructor
  · intro g id h o
    exact agrees_ofFindings (Findings.filled_ofChain _ _ _) .live
  · intro data target o x hx
    unfold ofClass at hx
    cases hrecord : ClassFile.ClassRecord.ofInput data target o with
    | error f =>
      rw [hrecord] at hx
      cases hx
    | ok record =>
      rw [hrecord] at hx
      cases hx
      exact agrees_ofFindings (Findings.filled_ofClass record) _

set_option maxRecDepth 4000 in
/-- A class that has an `M` with a `T` in it, and a `T`. -/
theorem presence_agrees_markedClass : ∃ x, ofClass (ClassFile.markedClass 2) none {} = .ok x ∧
    x.markerTypes = ["M", "T"] ∧ x.hasMarker "T" = true ∧ x.isEmpty = false := by
  have htypes : (ofClass (ClassFile.markedClass 2) none {}).toOption.map markerTypes =
      some ["M", "T"] := by decide +kernel
  obtain ⟨x, hx, hlisted⟩ := Option.map_eq_some_iff.1 htypes
  cases hread : ofClass (ClassFile.markedClass 2) none {} with
  | error f =>
    rw [hread] at hx
    cases hx
  | ok y =>
    rw [hread] at hx
    cases hx
    have hagrees := presence_agrees.2 _ _ _ _ hread
    refine ⟨x, rfl, hlisted, (hagrees.listed "T").2 (by simp [hlisted]), ?_⟩
    rw [Bool.eq_false_iff, Ne, hagrees.empty, hlisted]
    exact List.cons_ne_nil _ _

end Index

end MarkerIndex
