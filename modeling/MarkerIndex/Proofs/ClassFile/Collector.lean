/-
What the collector makes of what it is told. The values of an open marker become its properties in
order, the elements of an open array its elements; so telling a whole marker or array between its
start and its end is the same as placing the finished value at once.
-/
import MarkerIndex.ClassFile.Collect
import MarkerIndex.Proofs.ClassFile.Walks
import MarkerIndex.Proofs.ClassFile.Rebuilt

namespace MarkerIndex

namespace ClassFile.Collector

open Walk (andAlso eachOf andAlso_of_goes)

variable {c : Collector} {rest : List Frame}

/-! ## Inside a marker -/

/-- New properties go to the end of the open marker. -/
theorem eachOf_place_properties {type : String} {outer : Option String}
    {entries : Entries String Value} (own : Entries String Value)
    (h : Entries.Distinct (own ++ entries)) :
    eachOf (fun e : String × Value => place (some e.1) e.2) entries
        { c with frames := .marker type outer ⟨own, []⟩ :: rest } =
      (true, { c with frames := .marker type outer ⟨own ++ entries, []⟩ :: rest }) := by
  induction entries generalizing own with
  | nil => rw [List.append_nil]; rfl
  | cons e entries ih =>
    have hnew := Entries.not_has_of_distinct h
    have hplace : place (some e.1) e.2 { c with frames := .marker type outer ⟨own, []⟩ :: rest } =
        (true, { c with frames := .marker type outer ⟨own ++ [e], []⟩ :: rest }) := by
      rw [← Entries.insert_of_not_has e.2 hnew]; rfl
    rw [List.append_cons] at h
    -- The induction is on the properties to come, with those of the open marker general.
    rw [eachOf, andAlso_of_goes hplace, ih (own ++ [e]) h, ← List.append_cons]

theorem closeMarker_none {type : String} {property : Option String} {properties : Properties}
    (h : Text.isAllBlank type = false) :
    closeMarker none { c with frames := .marker type property properties :: rest } =
      file ⟨type, properties, none⟩ property { c with frames := rest } := by
  have hmake : MarkerOf.make type properties (none : Option Unit) =
      .ok ⟨type, properties, none⟩ := by
    unfold MarkerOf.make; rw [if_neg (by simp [h])]
  simp only [closeMarker, hmake]
  split
  next hf => rw [hf]; rfl
  next hf => rw [hf]

/-- A marker told from its start to its end is the finished marker filed at once. -/
theorem tell_marker {type : String} {property : Option String} {visible : Bool}
    {entries : Entries String Value} (hb : Text.isAllBlank type = false) (hd : entries.Distinct) :
    andAlso ((visitor none).visit (.markerStart type property visible))
      (andAlso (eachOf (fun e => place (some e.1) e.2) entries)
        ((visitor none).visit (.markerEnd type))) c =
      c.file ⟨type, ⟨entries, []⟩, none⟩ property := by
  have hstart : (visitor none).visit (.markerStart type property visible) c =
      (true, { c with frames := .marker type property .empty :: c.frames }) := rfl
  rw [andAlso_of_goes hstart]
  refine (andAlso_of_goes (eachOf_place_properties [] hd)).trans ?_
  exact closeMarker_none hb

/-- With something open, filing is placing. -/
theorem file_eq_place (h : c.frames ≠ []) (m : Marker Unit) (property : Option String) :
    c.file m property = c.place property (.marker m) := by
  unfold file
  split
  next hframes => exact absurd hframes h
  next => rfl

/-- A marker is placed only where something is open. -/
theorem file_of_place {m : Marker Unit} {property : Option String} {c' : Collector}
    (h : c.place property (.marker m) = (true, c')) : c.file m property = (true, c') := by
  have hframes : c.frames ≠ [] := by
    intro hframes
    unfold place at h
    rw [hframes] at h
    cases h
  rw [file_eq_place hframes]
  exact h

/-! ## Inside an array -/

/-- Scalars go to the end of the open array. -/
theorem eachOf_place_scalars {name : String} {ss : List Scalar} (acc : Array Scalar) :
    eachOf (fun s => place none (.scalar s)) ss
        { c with frames := .array name acc #[] :: rest } =
      (true, { c with frames := .array name (acc ++ ss.toArray) #[] :: rest }) := by
  induction ss generalizing acc with
  | nil => simp [eachOf]
  | cons s ss ih =>
    have hplace : place none (.scalar s) { c with frames := .array name acc #[] :: rest } =
        (true, { c with frames := .array name (acc.push s) #[] :: rest }) := rfl
    rw [eachOf, andAlso_of_goes hplace, ih]
    simp

/-- Markers go to the end of the open array. -/
theorem eachOf_place_markers {name : String} {ms : List (Marker Unit)}
    (acc : Array (Marker Unit)) :
    eachOf (fun m => place none (.marker m)) ms
        { c with frames := .array name #[] acc :: rest } =
      (true, { c with frames := .array name #[] (acc ++ ms.toArray) :: rest }) := by
  induction ms generalizing acc with
  | nil => simp [eachOf]
  | cons m ms ih =>
    have hplace : place none (.marker m) { c with frames := .array name #[] acc :: rest } =
        (true, { c with frames := .array name #[] (acc.push m) :: rest }) := by
      rfl
    rw [eachOf, andAlso_of_goes hplace, ih]
    simp

theorem tell_scalars {name : String} {ss : List Scalar} :
    andAlso ((visitor none).visit (.arrayStart name))
      (andAlso (eachOf (fun s => place none (.scalar s)) ss)
        ((visitor none).visit (.arrayEnd name))) c = c.place (some name) (.array ss) := by
  have hstart : (visitor none).visit (.arrayStart name) c =
      (true, { c with frames := .array name #[] #[] :: c.frames }) := rfl
  rw [andAlso_of_goes hstart, andAlso_of_goes (eachOf_place_scalars #[])]
  simp [visitor, closeArray, arrayValue]

theorem tell_markers {name : String} {ms : List (Marker Unit)} :
    andAlso ((visitor none).visit (.arrayStart name))
      (andAlso (eachOf (fun m => place none (.marker m)) ms)
        ((visitor none).visit (.arrayEnd name))) c =
      c.place (some name) (if ms.isEmpty then .array [] else .markers ms) := by
  have hstart : (visitor none).visit (.arrayStart name) c =
      (true, { c with frames := .array name #[] #[] :: c.frames }) := rfl
  rw [andAlso_of_goes hstart, andAlso_of_goes (eachOf_place_markers #[])]
  simp [visitor, closeArray, arrayValue]

end ClassFile.Collector

end MarkerIndex
