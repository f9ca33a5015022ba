/-
The groups of an index lose nothing and invent nothing. The markers of one type on members are
those of the table, in its order, and no two of them are on one member; the markers of one declaring
type are those of the members that it declares; and a member is listed for its parameters exactly
when one of them carries a marker of the type, with the markers of that type at each place.
-/
import MarkerIndex.Index.Basic
import MarkerIndex.Proofs.Host.Tables

namespace MarkerIndex

open Host

/-! ## Names and their changes -/

namespace Entries

variable {α κ β : Type} [DecidableEq κ]

@[simp] theorem get?_alter (es : Entries κ β) (key name : κ) (fresh : β) (f : β → β) :
    (es.alter key fresh f).get? name =
      if key = name then some (f ((es.get? key).getD fresh)) else es.get? name :=
  get?_insert es key name _

/-- After changes of many names, a name has what its own changes make of what it had. -/
theorem getD_foldl_alter (name : α → κ) (fresh : β) (f : α → β → β) (xs : List α)
    (es : Entries κ β) (key : κ) :
    ((xs.foldl (fun es x => es.alter (name x) fresh (f x)) es).get? key).getD fresh =
      (xs.filter fun x => name x = key).foldl (fun v x => f x v) ((es.get? key).getD fresh) := by
  induction xs generalizing es with
  | nil => rfl
  | cons x xs ih =>
    rw [List.foldl_cons, ih, get?_alter]
    by_cases hx : name x = key
    · rw [if_pos hx, hx, List.filter_cons_of_pos (by simpa using hx)]
      rfl
    · rw [if_neg hx, List.filter_cons_of_neg (by simpa using hx)]

theorem get?_map_pair (names : List κ) (f : κ → β) (key : κ) :
    get? (names.map fun name => (name, f name)) key =
      if key ∈ names then some (f key) else none := by
  induction names with
  | nil => rfl
  | cons name names ih =>
    rw [List.map_cons, get?, ih]
    by_cases h : name = key
    · simp [h]
    · simp [h, Ne.symm h]

end Entries

/-- Lists that are appended one after the other to a part of a whole. -/
theorem foldl_gather {ρ γ δ : Type} (whole : List γ → δ) (step : δ → ρ × List γ → δ)
    (h : ∀ part e, step (whole part) e = whole (part ++ e.2)) (es : List (ρ × List γ))
    (part : List γ) : es.foldl step (whole part) = whole (part ++ es.flatMap (·.2)) := by
  induction es generalizing part with
  | nil => simp
  | cons e es ih => rw [List.foldl_cons, h, ih, List.flatMap_cons, List.append_assoc]

theorem mem_distinct {names : List String} {name : String} :
    name ∈ distinct names ↔ name ∈ names := by
  suffices h : ∀ found : List String,
      name ∈ names.foldl (fun found name => if found.contains name then found else found ++ [name])
        found ↔ name ∈ found ∨ name ∈ names by
    exact (h []).trans (by simp)
  induction names with
  | nil => simp
  | cons next names ih =>
    intro found
    rw [List.foldl_cons, ih]
    by_cases hfound : found.contains next = true
    · rw [if_pos hfound, List.mem_cons]
      have hnext : name = next → name ∈ found := by
        rintro rfl
        simpa using hfound
      tauto
    · rw [if_neg hfound, List.mem_append, List.mem_singleton, List.mem_cons, or_assoc]

/-! ## Markers by type -/

section ByType

theorem get?_groupByType {ε : Type} (ms : List (Marker ε)) (type : String) :
    ((groupByType ms).get? type).getD [] = ms.filter fun m => m.type = type := by
  unfold groupByType
  rw [Entries.getD_foldl_alter]
  show (ms.filter _).foldl (fun group m => group ++ [m]) [] = _
  rw [List.foldl_append_eq_append, ← List.flatMap_def, List.flatMap_singleton']
  rfl

variable {μ κ : Type} [Identified μ κ]

/-- Of markers that are on one element and of different types, at most one is of the type. -/
theorem sublist_of_type {ms : List (Marker μ)} {k : κ} (type : String)
    (htypes : (ms.map (·.type)).Nodup) (helements : ∀ m ∈ ms, m.element.map identity = some k) :
    ((ms.filter fun m => m.type = type).map fun m => m.element.map identity).Sublist [some k] := by
  have hsame : ∀ m ∈ ms.filter fun m => m.type = type, m.type = type := by simp
  have hnodup : ((ms.filter fun m => m.type = type).map (·.type)).Nodup :=
    htypes.sublist (List.filter_sublist.map _)
  rw [List.map_congr_left hsame, List.map_const'] at hnodup
  rw [List.map_congr_left fun m hm => helements m (List.mem_filter.1 hm).1, List.map_const']
  exact (List.replicate_sublist_replicate _).2 (List.nodup_replicate.1 hnodup)

/-- The markers `ms` of one type in a table: all of them, in the order of the table, each on the
member of its entry, and no two on one member. -/
structure Host.MemberTable.Lists (t : MemberTable μ (List (Marker μ))) (type : String)
    (ms : List (Marker μ)) : Prop where
  all : ms = (t.flatMap (·.2)).filter fun m => m.type = type
  members : ∀ m ∈ ms, ∃ e ∈ t, m ∈ e.2 ∧ m.element.map identity = some (identity e.1)
  once : (ms.map fun m => m.element.map identity).Nodup

theorem lists_groupByType {t : MemberTable μ (List (Marker μ))} (h : t.Attributed) (type : String) :
    t.Lists type (((groupByType t.markers).get? type).getD []) := by
  rw [get?_groupByType]
  refine ⟨rfl, fun m hm => ?_, ?_⟩
  · obtain ⟨e, he, hme⟩ := List.mem_flatMap.1 (List.mem_filter.1 hm).1
    exact ⟨e, he, hme, h.elements e he m hme⟩
  -- Entry by entry at most the member itself, and the members are different.
  · have hsublist : ((t.markers.filter fun m => m.type = type).map fun m =>
        m.element.map identity).Sublist ((t.map fun e => identity e.1).map some) := by
      obtain ⟨-, htypes, helements⟩ := h
      induction t with
      | nil => exact List.Sublist.slnil
      | cons e t ih =>
        rw [List.forall_mem_cons] at htypes helements
        rw [MemberTable.markers, List.flatMap_cons, List.filter_append, List.map_append]
        exact (sublist_of_type type htypes.1 helements.1).append (ih htypes.2 helements.2)
    exact (h.distinct.map fun _ _ => Option.some.inj).sublist hsublist

end ByType

/-! ## Markers of parameters -/

section Places

variable {μ : Type}

theorem any_keepType (type : String) (places : ParameterMarkers) :
    ((keepType type places).any fun place => !place.isEmpty) =
      places.any fun place => place.any fun m => m.type = type := by
  rw [keepType, List.any_map]
  congr 1
  funext place
  rw [Bool.eq_iff_iff]
  simp

theorem filterPlaces_eq (type : String) (t : MemberTable μ ParameterMarkers) :
    filterPlaces type t =
      (t.filter fun e => e.2.any fun place => place.any fun m => m.type = type).map
        fun e => (e.1, keepType type e.2) := by
  rw [filterPlaces, List.filter_map]
  congr 2
  funext e
  exact any_keepType type e.2

/-- A type that no parameter carries leaves no member. -/
theorem get?_groupPlaces (t : MemberTable μ ParameterMarkers) (type : String) :
    ((groupPlaces t).get? type).getD [] = filterPlaces type t := by
  rw [groupPlaces, Entries.get?_map_pair]
  split
  next => rfl
  next hmissing =>
    rw [mem_distinct] at hmissing
    have hnone :
        (t.filter fun e => e.2.any fun place => place.any fun m => m.type = type) = [] := by
      refine List.filter_eq_nil_iff.2 fun e he hany => hmissing ?_
      simp only [List.any_eq_true, decide_eq_true_eq] at hany
      obtain ⟨place, hplace, m, hm, rfl⟩ := hany
      refine List.mem_map.2 ⟨m, List.mem_flatMap.2 ⟨e, he, ?_⟩, rfl⟩
      exact List.mem_flatten.2 ⟨place, hplace, hm⟩
    rw [filterPlaces_eq, hnone]
    rfl

variable {κ : Type} [Identified μ κ]

theorem any_parameterMarkers (type : String) (ps : List Parameter) :
    ((parameterMarkers ps).any fun place => place.any fun m => m.type = type) =
      ps.any fun p => p.markers.any fun m => m.type = type := by
  rw [parameterMarkers, List.any_map]
  congr 1
  funext p
  rw [Bool.eq_iff_iff]
  have htypes : type ∈ (attach p.markers p).map (·.type) ↔ type ∈ p.markers.map (·.type) :=
    mem_types_attach
  simpa using htypes

/-- The members that are listed for a type of marker on their parameters: those of the table that
have a parameter with such a marker, in the order of the table, with the markers of the type at each
place, and as many places as parameters. -/
structure Host.MemberTable.Places (t : MemberTable μ ParameterMarkers)
    (parameters : μ → List Parameter) (type : String) (listed : MemberTable μ ParameterMarkers) :
    Prop where
  all : listed =
    (t.filter fun e => (parameters e.1).any fun p => p.markers.any fun m => m.type = type).map
      fun e => (e.1, e.2.map fun place => place.filter fun m => m.type = type)
  aligned : ∀ e ∈ listed, e.2.length = (parameters e.1).length
  distinct : listed.Distinct

theorem places_groupPlaces {parameters : μ → List Parameter} {t : MemberTable μ ParameterMarkers}
    (h : t.Aligned parameters) (type : String) :
    t.Places parameters type (((groupPlaces t).get? type).getD []) := by
  rw [get?_groupPlaces, filterPlaces_eq]
  refine ⟨?_, fun e he => ?_, ?_⟩
  · congr 1
    refine List.filter_congr fun e he => ?_
    rw [h.places e he, any_parameterMarkers]
  · obtain ⟨d, hd, rfl⟩ := List.mem_map.1 he
    show (keepType type d.2).length = _
    rw [h.places d (List.mem_filter.1 hd).1, keepType, parameterMarkers, List.length_map,
      List.length_map]
  · rw [MemberTable.Distinct, List.map_map]
    exact h.distinct.sublist (List.filter_sublist.map _)

end Places

/-! ## Markers by declaring type -/

/-- A list among the markers that one type declares. -/
structure Declared.Part (γ : Type) where
  get : Declared → List γ
  put : Declared → List γ → Declared
  get_put : ∀ d part, get (put d part) = part
  put_get : ∀ d, put d (get d) = d
  put_put : ∀ d part part', put (put d part) part' = put d part'

def Declared.fieldPart : Declared.Part (Marker Field) :=
  ⟨Declared.fields, fun d part => { d with fields := part }, fun _ _ => rfl, fun _ => rfl,
    fun _ _ _ => rfl⟩

def Declared.methodPart : Declared.Part (Marker Method) :=
  ⟨Declared.methods, fun d part => { d with methods := part }, fun _ _ => rfl, fun _ => rfl,
    fun _ _ _ => rfl⟩

def Declared.constructorPart : Declared.Part (Marker Constructor) :=
  ⟨Declared.constructors, fun d part => { d with constructors := part }, fun _ _ => rfl,
    fun _ => rfl, fun _ _ _ => rfl⟩

/-- The markers of a table behind those that the owners of its members have in one part. -/
def addByOwner {ρ γ : Type} (part : Declared.Part γ) (owner : ρ → String) (t : List (ρ × List γ))
    (groups : Entries String Declared) : Entries String Declared :=
  t.foldl (fun groups e =>
    groups.alter (owner e.1) {} fun d => part.put d (part.get d ++ e.2)) groups

theorem getD_addByOwner {ρ γ : Type} (part : Declared.Part γ) (owner : ρ → String)
    (t : List (ρ × List γ)) (groups : Entries String Declared) (name : String) :
    ((addByOwner part owner t groups).get? name).getD {} =
      part.put ((groups.get? name).getD {}) (part.get ((groups.get? name).getD {}) ++
        (t.filter fun e => owner e.1 = name).flatMap (·.2)) := by
  rw [addByOwner, Entries.getD_foldl_alter]
  generalize (groups.get? name).getD {} = d
  have hgather := foldl_gather (part.put d) (fun d e => part.put d (part.get d ++ e.2))
    (fun list e => by rw [part.get_put, part.put_put]) (t.filter fun e => owner e.1 = name)
    (part.get d)
  rwa [part.put_get] at hgather

/-- The three loops fill the three parts of what a type declares, one after the other. -/
theorem groupByOwner_eq (f : Findings) : groupByOwner f =
    addByOwner Declared.constructorPart Constructor.owner f.constructors
      (addByOwner Declared.methodPart Method.owner f.methods
        (addByOwner Declared.fieldPart Field.owner f.fields [])) := rfl

theorem getD_groupByOwner (f : Findings) (owner : String) :
    ((groupByOwner f).get? owner).getD {} =
      { fields := (f.fields.filter fun e => e.1.owner = owner).flatMap (·.2)
        methods := (f.methods.filter fun e => e.1.owner = owner).flatMap (·.2)
        constructors := (f.constructors.filter fun e => e.1.owner = owner).flatMap (·.2) } := by
  rw [groupByOwner_eq, getD_addByOwner, getD_addByOwner, getD_addByOwner]
  rfl

/-! ## The index of a host type -/

/-- For every type of marker and every declaring type, the groups of the index of a host type are
those of what was found on it. -/
theorem ofType_groups (g : TypeGraph) (id : TypeId) (h : Hierarchy) (o : Options)
    (type owner : String) :
    let found := Findings.ofType g id h o
    let x := Index.ofType g id h o
    found.fields.Lists type (x.fieldMarkers type) ∧
      found.methods.Lists type (x.methodMarkers type) ∧
      found.constructors.Lists type (x.constructorMarkers type) ∧
      x.declaredBy owner =
        { fields := (found.fields.filter fun e => e.1.owner = owner).flatMap (·.2)
          methods := (found.methods.filter fun e => e.1.owner = owner).flatMap (·.2)
          constructors := (found.constructors.filter fun e => e.1.owner = owner).flatMap (·.2) } ∧
      found.methodParameters.Places Method.parameters type (x.methodPlaces type) ∧
      found.constructorParameters.Places Constructor.parameters type
        (x.constructorPlaces type) := by
  intro found x
  have hregular : found.Regular := Findings.regular_ofChain _ _ _
  refine ⟨?_, ?_, ?_, getD_groupByOwner found owner, ?_, ?_⟩
  · exact lists_groupByType hregular.fields type
  · exact lists_groupByType hregular.methods type
  · exact lists_groupByType hregular.constructors type
  · exact places_groupPlaces hregular.methodParameters type
  · exact places_groupPlaces hregular.constructorParameters type

end MarkerIndex
