/-
What the collector makes of the markers that are told, tree by tree. A tree stands for a marker by
recursion: its properties are inserted one after the other, and an array is one of markers if there
are any in it, and one of scalars otherwise. The collector files what the trees of a descriptor stand
for, the first of each type staying. It finds a fault exactly if a type in a tree is blank or an
array has scalars and markers in it.
-/
import MarkerIndex.Proofs.ClassFile.Collector
import MarkerIndex.Proofs.ClassFile.Reading
import MarkerIndex.Proofs.ClassFile.Trees

namespace MarkerIndex

/-! ## What trees stand for -/

namespace Value

/-- The value of an array: the markers if there are any, and otherwise the scalars. -/
def ofElements (vs : List Value) : Value :=
  if (vs.filterMap marker?).isEmpty then .array (vs.filterMap scalar?)
  else .markers (vs.filterMap marker?)

/-- There are scalars as well as markers. -/
def mixed (vs : List Value) : Bool :=
  !(vs.filterMap scalar?).isEmpty && !(vs.filterMap marker?).isEmpty

end Value

namespace ClassFile

/-- What a part of a marker stands for. -/
abbrev Form.Meaning : Form → Type
  | .marker _ => Marker Unit
  | .content _ => Value
  | .properties => List (String × Value)
  | .elements => List Value

namespace MarkerTree

/-- The marker, the value, the properties in order or the elements in order. -/
def meaning : {form : Form} → MarkerTree form → form.Meaning
  | _, .marker type properties => (⟨type, ⟨Entries.ofList properties.meaning, []⟩, none⟩ : Marker Unit)
  | _, .value s => Value.scalar s
  | _, .nested m => Value.marker m.meaning
  | _, .array elements => Value.ofElements elements.meaning
  | _, .noProperties => []
  | _, .property name content others => (name, content.meaning) :: others.meaning
  | _, .noElements => []
  | _, .element content others => content.meaning :: others.meaning

/-- The type of a marker is blank, or an array has scalars as well as markers in it. -/
def flawed : {form : Form} → MarkerTree form → Bool
  | _, .marker type properties => Text.isAllBlank type || properties.flawed
  | _, .value _ => false
  | _, .nested m => m.flawed
  | _, .array elements => Value.mixed elements.meaning || elements.flawed
  | _, .noProperties => false
  | _, .property _ content others => content.flawed || others.flawed
  | _, .noElements => false
  | _, .element content others => content.flawed || others.flawed

end MarkerTree

namespace Collector

open Walk (andAlso eachOf)

variable {c : Collector} {rest : List Frame} {es : List Event}

/-! ## Declining because of a fault -/

/-- An event is declined, and there is a fault. -/
def Rejected (a : Answer) : Prop := a.1 = false ∧ a.2.fault ≠ none

theorem rejected_reject (cause : Malformation) (c : Collector) : Rejected (c.reject cause) :=
  ⟨rfl, by simp [reject]⟩

theorem rejected_andAlso {f : Collector → Answer} (g : Collector → Answer) (h : Rejected (f c)) :
    Rejected (andAlso f g c) := by
  unfold andAlso
  rcases hf : f c with ⟨_ | _, c'⟩
  · rwa [hf] at h
  · rw [hf] at h
    cases h.1

theorem rejected_append (es' : List Event) (h : Rejected ((visitor none).hear es c)) :
    Rejected ((visitor none).hear (es ++ es') c) := by
  rw [Visitor.hear_append]
  exact rejected_andAlso _ h

/-- What is open is pushed before anything else is told. -/
theorem hear_markerStart (type : String) (property : Option String) (visible : Bool)
    (es : List Event) : (visitor none).hear (.markerStart type property visible :: es) c =
      (visitor none).hear es { c with frames := .marker type property ⟨[], []⟩ :: c.frames } :=
  Visitor.hear_cons es rfl

theorem hear_arrayStart (name : String) (es : List Event) :
    (visitor none).hear (.arrayStart name :: es) c =
      (visitor none).hear es { c with frames := .array name #[] #[] :: c.frames } :=
  Visitor.hear_cons es rfl

/-! ## Elements -/

/-- A scalar or a marker. -/
def Elemental : Value → Prop
  | .scalar _ | .marker _ => True
  | _ => False

section Elements

variable {name : String} {scalars : Array Scalar} {markers : Array (Marker Unit)} {vs : List Value}

/-- The open array takes a value, or it is declined. -/
theorem place_array (c : Collector) (name : String) (scalars : Array Scalar)
    (markers : Array (Marker Unit)) (rest : List Frame) (v : Value) :
    (∃ scalars' markers', place none v { c with frames := .array name scalars markers :: rest } =
      (true, { c with frames := .array name scalars' markers' :: rest })) ∨
    Rejected (place none v { c with frames := .array name scalars markers :: rest }) := by
  unfold place
  dsimp only
  split
  next => exact .inl ⟨_, _, rfl⟩
  next => exact .inl ⟨_, _, rfl⟩
  next => exact .inr (rejected_reject _ _)

theorem place_scalar_goes (s : Scalar) :
    place none (.scalar s) { c with frames := .array name scalars #[] :: rest } =
      (true, { c with frames := .array name (scalars.push s) #[] :: rest }) := rfl

theorem place_marker_goes (m : Marker Unit) :
    place none (.marker m) { c with frames := .array name #[] markers :: rest } =
      (true, { c with frames := .array name #[] (markers.push m) :: rest }) := rfl

theorem place_scalar_rejected (s : Scalar) (h : markers ≠ #[]) :
    Rejected (place none (.scalar s) { c with frames := .array name scalars markers :: rest }) := by
  have hempty : markers.isEmpty = false := by simpa using h
  simp only [place, hempty]
  exact rejected_reject _ _

theorem place_marker_rejected (m : Marker Unit) (h : scalars ≠ #[]) :
    Rejected (place none (.marker m) { c with frames := .array name scalars markers :: rest }) := by
  have hempty : scalars.isEmpty = false := by simpa using h
  simp only [place, hempty]
  exact rejected_reject _ _

/-- Scalars alone go to the end of the open array, and so do markers alone. -/
theorem eachOf_place_elements (hvs : ∀ v ∈ vs, Elemental v)
    (h : scalars.toList ++ vs.filterMap Value.scalar? = [] ∨
      markers.toList ++ vs.filterMap Value.marker? = []) :
    eachOf (place none) vs { c with frames := .array name scalars markers :: rest } =
      (true, { c with
        frames := .array name (scalars ++ (vs.filterMap Value.scalar?).toArray)
          (markers ++ (vs.filterMap Value.marker?).toArray) :: rest }) := by
  induction vs generalizing scalars markers with
  | nil => simp [eachOf]
  | cons v vs ih =>
    rw [List.forall_mem_cons] at hvs
    cases v with
    | scalar s =>
      simp only [List.filterMap_cons, Value.scalar?, Value.marker?] at h ⊢
      have hmarkers : markers = #[] ∧ vs.filterMap Value.marker? = [] := by simpa using h
      obtain ⟨rfl, hnone⟩ := hmarkers
      rw [eachOf, Walk.andAlso_of_goes (place_scalar_goes s), ih hvs.2 (.inr (by simpa using hnone))]
      simp
    | marker m =>
      simp only [List.filterMap_cons, Value.scalar?, Value.marker?] at h ⊢
      have hscalars : scalars = #[] ∧ vs.filterMap Value.scalar? = [] := by simpa using h
      obtain ⟨rfl, hnone⟩ := hscalars
      rw [eachOf, Walk.andAlso_of_goes (place_marker_goes m), ih hvs.2 (.inl (by simpa using hnone))]
      simp
    | array _ | markers _ => exact hvs.1.elim

/-- Scalars and markers together are declined. -/
theorem eachOf_place_mixed (hvs : ∀ v ∈ vs, Elemental v) (hopen : scalars = #[] ∨ markers = #[])
    (hscalars : scalars.toList ++ vs.filterMap Value.scalar? ≠ [])
    (hmarkers : markers.toList ++ vs.filterMap Value.marker? ≠ []) :
    Rejected (eachOf (place none) vs { c with frames := .array name scalars markers :: rest }) := by
  induction vs generalizing scalars markers with
  | nil =>
    simp only [List.filterMap_nil, List.append_nil, ne_eq, Array.toList_eq_nil_iff] at hscalars hmarkers
    exact (hopen.elim hscalars hmarkers).elim
  | cons v vs ih =>
    rw [List.forall_mem_cons] at hvs
    cases v with
    | scalar s =>
      by_cases hempty : markers = #[]
      · subst hempty
        rw [eachOf, Walk.andAlso_of_goes (place_scalar_goes s)]
        exact ih hvs.2 (.inr rfl) (by simp) hmarkers
      · exact rejected_andAlso _ (place_scalar_rejected s hempty)
    | marker m =>
      by_cases hempty : scalars = #[]
      · subst hempty
        rw [eachOf, Walk.andAlso_of_goes (place_marker_goes m)]
        exact ih hvs.2 (.inl rfl) hscalars (by simp)
      · exact rejected_andAlso _ (place_marker_rejected m hempty)
    | array _ | markers _ => exact hvs.1.elim

end Elements

theorem elemental_meaning : (elements : MarkerTree .elements) →
    ∀ v ∈ elements.meaning, Elemental v
  | .noElements => by simp [MarkerTree.meaning]
  | .element content others => by
    refine List.forall_mem_cons.2 ⟨?_, elemental_meaning others⟩
    cases content with
    | value s => trivial
    | nested m => trivial

/-! ## Trees without a flaw -/

/-- Telling the events is filing the marker or placing the value; and properties and elements that
are told are inserted and placed one after the other. -/
def Means (es : List Event) : (form : Form) → form.Meaning → Prop
  | .marker property, m => ∀ c : Collector, (visitor none).hear es c = c.file m property
  | .content property, v => ∀ c : Collector, c.frames ≠ [] →
      (visitor none).hear es c = c.place property v
  | .properties, ps => ∀ (c : Collector) type outer own rest,
      (visitor none).hear es { c with frames := .marker type outer ⟨own, []⟩ :: rest } =
        (true, { c with
          frames := .marker type outer ⟨ps.foldl (fun es (k, v) => Entries.insert es k v) own, []⟩ ::
            rest })
  | .elements, vs => ∀ (c : Collector) name scalars markers rest,
      (visitor none).hear es { c with frames := .array name scalars markers :: rest } =
        eachOf (place none) vs { c with frames := .array name scalars markers :: rest }

section Means

variable {es' : List Event}

theorem means_marker {type : String} {property : Option String} {visible : Bool}
    {ps : List (String × Value)} (hblank : Text.isAllBlank type = false)
    (h : Means es .properties ps) :
    Means (.markerStart type property visible :: (es ++ [.markerEnd type])) (.marker property)
      (⟨type, ⟨Entries.ofList ps, []⟩, none⟩ : Marker Unit) := by
  intro c
  rw [hear_markerStart, Visitor.hear_append_of_goes _ (h c type property [] c.frames),
    Visitor.hear_singleton (by simp)]
  exact closeMarker_none hblank

theorem means_array {name : String} {vs : List Value} (hvs : ∀ v ∈ vs, Elemental v)
    (hmixed : Value.mixed vs = false) (h : Means es .elements vs) :
    Means (.arrayStart name :: (es ++ [.arrayEnd name])) (.content (some name))
      (Value.ofElements vs) := by
  intro c _
  have hone : vs.filterMap Value.scalar? = [] ∨ vs.filterMap Value.marker? = [] := by
    simpa [Value.mixed, or_iff_not_imp_left] using hmixed
  have hes := h c name #[] #[] c.frames
  rw [eachOf_place_elements hvs (by simpa using hone)] at hes
  rw [hear_arrayStart, Visitor.hear_append_of_goes _ hes, Visitor.hear_singleton (by simp)]
  simp [visitor, closeArray, arrayValue, Value.ofElements]

/-- In an open marker a value becomes the property it is named for. -/
theorem Means.inserts {name : String} {v : Value} (h : Means es (.content (some name)) v)
    (c : Collector) (type : String) (outer : Option String) (own : Entries String Value)
    (rest : List Frame) :
    (visitor none).hear es { c with frames := .marker type outer ⟨own, []⟩ :: rest } =
      (true, { c with frames := .marker type outer ⟨own.insert name v, []⟩ :: rest }) :=
  h _ (by simp)

theorem means_property {name : String} {v : Value} {ps : List (String × Value)}
    (h : Means es (.content (some name)) v) (h' : Means es' .properties ps) :
    Means (es ++ es') .properties ((name, v) :: ps) := by
  intro c type outer own rest
  rw [Visitor.hear_append_of_goes es' (h.inserts c type outer own rest), h' c type outer _ rest]
  rfl

theorem means_element {v : Value} {vs : List Value} (h : Means es (.content none) v)
    (h' : Means es' .elements vs) : Means (es ++ es') .elements (v :: vs) := by
  intro c name scalars markers rest
  rw [Visitor.hear_append, eachOf]
  unfold andAlso
  rw [h _ (by simp)]
  rcases hplace : place none v { c with frames := .array name scalars markers :: rest } with
    ⟨_ | _, c'⟩
  · rfl
  · obtain ⟨scalars', markers', hgoes⟩ | hrejected := place_array c name scalars markers rest v
    · rw [hplace] at hgoes
      cases hgoes
      exact h' c name scalars' markers' rest
    · rw [hplace] at hrejected
      cases hrejected.1

/-- What the collector makes of a tree without a flaw is what the tree stands for. -/
theorem means {visible : Bool} {form : Form} (tree : MarkerTree form) (h : tree.flawed = false) :
    Means (tree.events visible) form tree.meaning := by
  induction tree with
  | marker type properties ih =>
    simp only [MarkerTree.flawed, Bool.or_eq_false_iff] at h
    exact means_marker h.1 (ih h.2)
  | value s =>
    intro c _
    exact Visitor.hear_singleton (by simp)
  | nested m ih =>
    intro c hframes
    exact (ih h c).trans (file_eq_place hframes _ _)
  | array elements ih =>
    simp only [MarkerTree.flawed, Bool.or_eq_false_iff] at h
    exact means_array (elemental_meaning elements) h.1 (ih h.2)
  | noProperties => exact fun c type outer own rest => rfl
  | property name content others ih ih' =>
    simp only [MarkerTree.flawed, Bool.or_eq_false_iff] at h
    exact means_property (ih h.1) (ih' h.2)
  | noElements => exact fun c name scalars markers rest => rfl
  | element content others ih ih' =>
    simp only [MarkerTree.flawed, Bool.or_eq_false_iff] at h
    exact means_element (ih h.1) (ih' h.2)

end Means

/-! ## Trees with a flaw -/

/-- One of the events is declined because of a fault, where the part of a marker has its place. -/
def Refused (es : List Event) : Form → Prop
  | .marker _ => ∀ c : Collector, Rejected ((visitor none).hear es c)
  | .content _ => ∀ c : Collector, Rejected ((visitor none).hear es c)
  | .properties => ∀ (c : Collector) type outer own rest,
      Rejected ((visitor none).hear es { c with frames := .marker type outer ⟨own, []⟩ :: rest })
  | .elements => ∀ (c : Collector) name scalars markers rest,
      Rejected ((visitor none).hear es { c with frames := .array name scalars markers :: rest })

section Refused

variable {es' : List Event}

theorem closeMarker_rejected {type : String} {property : Option String} {properties : Properties}
    (h : Text.isAllBlank type = true) : Rejected
      (closeMarker none { c with frames := .marker type property properties :: rest }) := by
  unfold closeMarker MarkerOf.make
  simp only [h, if_pos]
  exact rejected_reject _ _

/-- A blank type is found when the marker closes. -/
theorem refused_blank {type : String} {property : Option String} {visible : Bool}
    {ps : List (String × Value)} (hblank : Text.isAllBlank type = true)
    (h : Means es .properties ps) :
    Refused (.markerStart type property visible :: (es ++ [.markerEnd type])) (.marker property) := by
  intro c
  rw [hear_markerStart, Visitor.hear_append_of_goes _ (h c type property [] c.frames),
    Visitor.hear_singleton (by simp)]
  exact closeMarker_rejected hblank

/-- Mixed elements are found at the first one that does not fit the others. -/
theorem refused_mixed {name : String} {vs : List Value} (hvs : ∀ v ∈ vs, Elemental v)
    (hmixed : Value.mixed vs = true) (h : Means es .elements vs) :
    Refused (.arrayStart name :: (es ++ [.arrayEnd name])) (.content (some name)) := by
  intro c
  have hboth : vs.filterMap Value.scalar? ≠ [] ∧ vs.filterMap Value.marker? ≠ [] := by
    simpa [Value.mixed] using hmixed
  rw [hear_arrayStart]
  refine rejected_append _ ?_
  rw [h c name #[] #[] c.frames]
  exact eachOf_place_mixed hvs (.inl rfl) hboth.1 hboth.2

theorem refused_properties {name : String} {v : Value} (h : Means es (.content (some name)) v)
    (h' : Refused es' .properties) : Refused (es ++ es') .properties := by
  intro c type outer own rest
  rw [Visitor.hear_append_of_goes es' (h.inserts c type outer own rest)]
  exact h' c type outer _ rest

/-- The array takes the element or declines it; if it takes it, the fault is behind it. -/
theorem refused_elements {v : Value} (h : Means es (.content none) v)
    (h' : Refused es' .elements) : Refused (es ++ es') .elements := by
  intro c name scalars markers rest
  obtain ⟨scalars', markers', hgoes⟩ | hrejected := place_array c name scalars markers rest v
  · rw [← h _ (by simp)] at hgoes
    rw [Visitor.hear_append_of_goes es' hgoes]
    exact h' c name scalars' markers' rest
  · rw [← h _ (by simp)] at hrejected
    exact rejected_append es' hrejected

/-- A tree with a flaw is declined. -/
theorem refused {visible : Bool} {form : Form} (tree : MarkerTree form) (h : tree.flawed = true) :
    Refused (tree.events visible) form := by
  -- At each part the first flaw counts: what is told in front of it is without one.
  induction tree with
  | marker type properties ih =>
    by_cases hproperties : properties.flawed = true
    · intro c
      refine (hear_markerStart ..).symm ▸ rejected_append _ ?_
      exact ih hproperties c type _ [] c.frames
    · simp only [MarkerTree.flawed, hproperties, Bool.or_false] at h
      exact refused_blank h (means properties (by simpa using hproperties))
  | value s => cases h
  | nested m ih => exact ih h
  | array elements ih =>
    by_cases helements : elements.flawed = true
    · intro c
      refine (hear_arrayStart ..).symm ▸ rejected_append _ ?_
      exact ih helements c _ #[] #[] c.frames
    · simp only [MarkerTree.flawed, helements, Bool.or_false] at h
      exact refused_mixed (elemental_meaning elements) h (means elements (by simpa using helements))
  | noProperties => cases h
  | property name content others ih ih' =>
    by_cases hcontent : content.flawed = true
    · exact fun c type outer own rest => rejected_append _ (ih hcontent _)
    · simp only [MarkerTree.flawed, hcontent, Bool.false_or] at h
      exact refused_properties (means content (by simpa using hcontent)) (ih' h)
  | noElements => cases h
  | element content others ih ih' =>
    by_cases hcontent : content.flawed = true
    · exact fun c name scalars markers rest => rejected_append _ (ih hcontent _)
    · simp only [MarkerTree.flawed, hcontent, Bool.false_or] at h
      exact refused_elements (means content (by simpa using hcontent)) (ih' h)

end Refused

/-! ## The markers of a class -/

section Spelled

variable {trees : List (Bool × MarkerTree (.marker none))}

theorem hear_outermost {visible : Bool} {tree : MarkerTree (.marker none)} (hc : c.frames = [])
    (h : tree.flawed = false) : (visitor none).hear (tree.events visible) c =
      (true, { c with filed := Entries.insertNew c.filed tree.meaning.type tree.meaning }) := by
  rw [means tree h c, file, hc]
  rfl

/-- Markers without a flaw are filed under their types. -/
theorem hear_spelled (hc : c.frames = []) (h : ∀ p ∈ trees, p.2.flawed = false) :
    (visitor none).hear (spelled trees) c = (true, { c with
      filed := (trees.map fun p => (p.2.meaning.type, p.2.meaning)).foldl
        (fun es (k, v) => Entries.insertNew es k v) c.filed }) := by
  induction trees generalizing c with
  | nil => rfl
  | cons p trees ih =>
    rw [List.forall_mem_cons] at h
    rw [spelled, List.flatMap_cons, Visitor.hear_append_of_goes _ (hear_outermost hc h.1)]
    exact ih hc h.2

/-- The first marker with a flaw is declined. -/
theorem hear_spelled_rejected (hc : c.frames = []) (h : ∃ p ∈ trees, p.2.flawed = true) :
    Rejected ((visitor none).hear (spelled trees) c) := by
  induction trees generalizing c with
  | nil =>
    obtain ⟨_, ⟨⟩, _⟩ := h
  | cons p trees ih =>
    rw [spelled, List.flatMap_cons]
    by_cases hp : p.2.flawed = true
    · exact rejected_append _ (refused p.2 hp c)
    · obtain ⟨q, hq, hflawed⟩ := h
      obtain rfl | hq := List.mem_cons.1 hq
      · exact absurd hflawed hp
      rw [Visitor.hear_append_of_goes _ (hear_outermost hc (by simpa using hp))]
      exact ih hc ⟨q, hq, hflawed⟩

end Spelled

end Collector

/-! ## Reading a descriptor -/

section Reading

variable {o : Options} {data rest : Bytes} {header : Header}
  {trees : List (Bool × MarkerTree (.marker none))}

/-- A descriptor whose markers have no flaw is read as what they stand for. -/
theorem read_of_sound (htells : Tells (fun _ v => tellClass o v) data
      (.header header :: (spelled trees ++ [.finish])) (.ok ()) rest)
    (h : ∀ p ∈ trees, p.2.flawed = false) : ClassRecord.read data none o =
      .ok ⟨header, MarkerOf.firstOfEachType (trees.map fun p => p.2.meaning), false⟩ := by
  have hgoes := Visitor.hear_cons (v := Collector.visitor none) (e := .header header)
    (s := {}) (spelled trees ++ [.finish]) rfl
  rw [Visitor.hear_append_of_goes _ (Collector.hear_spelled rfl h), Visitor.hear_finish] at hgoes
  unfold ClassRecord.read
  rw [htells.decode_of_goes hgoes]
  simp [Collector.visitor, Collector.proceed, Except.map, MarkerOf.firstOfEachType, Entries.firsts,
    Function.comp_def]

/-- A descriptor with a flaw in one of its markers is malformed. -/
theorem read_of_flawed (htells : Tells (fun _ v => tellClass o v) data
      (.header header :: (spelled trees ++ [.finish])) (.ok ()) rest)
    (h : ∃ p ∈ trees, p.2.flawed = true) :
    ∃ cause, ClassRecord.read data none o = .error (.malformed cause) := by
  have hrejected : Collector.Rejected ((Collector.visitor none).hear
      (.header header :: (spelled trees ++ [.finish])) {}) := by
    rw [Visitor.hear_cons _ rfl]
    exact Collector.rejected_append _ (Collector.hear_spelled_rejected rfl h)
  rcases hes : (Collector.visitor none).hear (.header header :: (spelled trees ++ [.finish])) {} with
    ⟨_ | _, c⟩
  · rw [hes] at hrejected
    obtain ⟨cause, hcause⟩ := Option.ne_none_iff_exists'.1 hrejected.2
    refine ⟨cause, ?_⟩
    unfold ClassRecord.read
    rw [htells.decode_of_stops hes]
    dsimp only at hcause ⊢
    rw [hcause]
  · rw [hes] at hrejected
    cases hrejected.1

end Reading

/-- When a visitor that never declines is told a descriptor to its finish, what it hears spells the
header and one list of trees. The descriptor is malformed exactly if a tree has a blank type or an
array of scalars and markers in it, and otherwise its markers are the first one of each type that
the trees stand for, in their order. -/
theorem read_files_trees (o : Options) (data : Bytes) {σ : Type} {v : Visitor σ} (hv : v.Tireless)
    (s : σ) (h : (decode o v data s).1 = .ok .finished) :
    ∃ (header : Header) (trees : List (Bool × MarkerTree (.marker none))),
      (∀ header' trees', heard o v data s = .header header' :: (spelled trees' ++ [.finish]) ↔
        header' = header ∧ trees' = trees) ∧
      ((∃ cause, ClassRecord.read data none o = .error (.malformed cause)) ↔
        ∃ p ∈ trees, p.2.flawed = true) ∧
      ((∀ p ∈ trees, p.2.flawed = false) → ClassRecord.read data none o =
        .ok ⟨header, MarkerOf.firstOfEachType (trees.map fun p => p.2.meaning), false⟩) := by
  obtain ⟨es, answer, rest, htells, hscript⟩ := exists_script o data
  obtain ⟨t, ht⟩ := hv.hear es s
  rw [htells.decode_of_goes ht] at h
  cases hscript with
  | broken => cases h
  | whole hprotocol =>
    obtain ⟨header, ms, hms, rfl⟩ := hprotocol
    obtain ⟨trees, rfl⟩ := hms.exists_trees
    refine ⟨header, trees, ?_, ?_, read_of_sound htells⟩
    · intro header' trees'
      rw [htells.heard_of_goes ht, List.cons.injEq, Event.header.injEq, List.append_left_inj]
      constructor
      · rintro ⟨rfl, hspelled⟩
        exact ⟨rfl, (spelled_injective hspelled).symm⟩
      · rintro ⟨rfl, rfl⟩
        exact ⟨rfl, rfl⟩
    · constructor
      · rintro ⟨cause, hcause⟩
        by_contra hnone
        have hsound : ∀ p ∈ trees, p.2.flawed = false := by simpa using hnone
        rw [read_of_sound htells hsound] at hcause
        cases hcause
      · exact read_of_flawed htells

set_option maxRecDepth 4000 in
/-- An `M` with a `T` inside, and another `T`, are read as an `M` with this property and a `T`. -/
theorem read_files_trees_marked : Visitor.silent.Tireless ∧
    (decode {} Visitor.silent (markedClass 2) ()).1 = .ok .finished ∧
    ClassRecord.read (markedClass 2) none {} = .ok ⟨⟨0, 52, 0x21, "A", none, []⟩,
      [("M", ⟨"M", ⟨[("x", .marker ⟨"T", .empty, none⟩)], []⟩, none⟩), ("T", ⟨"T", .empty, none⟩)],
      false⟩ := by
  have hsilent : Visitor.silent.Tireless := fun _ _ => rfl
  have hfinished : (decode {} Visitor.silent (markedClass 2) ()).1 = .ok .finished := by
    decide +kernel
  refine ⟨hsilent, hfinished, ?_⟩
  obtain ⟨header, trees, hspelled, -, hread⟩ :=
    read_files_trees {} (markedClass 2) hsilent () hfinished
  have hheard : heard {} Visitor.silent (markedClass 2) () =
      .header ⟨0, 52, 0x21, "A", none, []⟩ :: (spelled
        [(true, .marker "M" (.property "x" (.nested (.marker "T" .noProperties)) .noProperties)),
          (true, .marker "T" .noProperties)] ++ [.finish]) := by decide +kernel
  obtain ⟨rfl, rfl⟩ := (hspelled _ _).1 hheard
  rw [hread (by decide)]
  rfl

/-- A name that is told again keeps its place and takes the value that is told last. -/
example : (MarkerTree.marker "M" (.property "x" (.value (.int 1)) (.property "y" (.array .noElements)
      (.property "x" (.value (.int 2)) .noProperties))) : MarkerTree (.marker none)).meaning =
    ⟨"M", ⟨[("x", .scalar (.int 2)), ("y", .array [])], []⟩, none⟩ := rfl

end ClassFile

end MarkerIndex
