/-
The members that are found by simple name. For one type of marker they are the fields and methods
that carry it, each name with the first of its markers, the names of fields in front of those of
methods; and where a field and a method share a name there is nothing but the name of the first such
method.

The rules read the markers of the one type on fields and on methods, in the order of the index, and
nothing else. So what is found for a type of marker does not depend on what the members carry
besides, and a name that is shared under one type withholds nothing under another.
-/
import MarkerIndex.Proofs.Index.Groups

namespace MarkerIndex

open Host

/-! ## Simple names -/

namespace Accessible

/-- The simple name of the member, if the marker is on one. -/
def name? : Accessible → Option String
  | .field m => m.element.map (·.name)
  | .method m => m.element.map (·.signature.name)

/-- The simple names of the members, in the order of their markers. -/
def names (found : List Accessible) : List String := found.filterMap name?

theorem mem_names_field {ms : List (Marker Field)} {name : String} :
    name ∈ names (ms.map .field) ↔ ∃ m ∈ ms, m.element.map (·.name) = some name := by
  simp [names, name?]

theorem mem_names_method {ms : List (Marker Method)} {name : String} :
    name ∈ names (ms.map .method) ↔ ∃ m ∈ ms, m.element.map (·.signature.name) = some name := by
  simp [names, name?]

/-- Every marker is on a member. -/
def Placed (found : List Accessible) : Prop := ∀ a ∈ found, a.name? = some a.memberName

theorem name?_getD (a : Accessible) : a.name?.getD "" = a.memberName := by
  cases a <;> rfl

theorem placed_iff {found : List Accessible} :
    Placed found ↔ ∀ a ∈ found, a.name?.isSome = true := by
  refine forall₂_congr fun a _ => ?_
  rw [← a.name?_getD]
  cases a.name? <;> simp

variable {found : List Accessible}

theorem Placed.names_eq (h : Placed found) : names found = found.map (·.memberName) := by
  rw [names, List.filterMap_congr h, ← List.filterMap_eq_map]
  rfl

theorem Placed.keys_byName (h : Placed found) : (byName found).keys = (names found).eraseDups := by
  rw [byName, Entries.keys_firsts, h.names_eq, List.map_map]
  rfl

theorem Placed.get?_byName (h : Placed found) (name : String) :
    (byName found).get? name = found.find? fun a => a.name? = some name := by
  rw [byName, Entries.get?_firsts, List.find?_map, Option.map_map]
  show Option.map id _ = _
  rw [Option.map_id, id, ← List.head?_filter, ← List.head?_filter]
  refine congrArg _ (List.filter_congr fun a ha => ?_)
  rw [h a ha]
  simp

theorem Placed.has_byName (h : Placed found) {name : String} :
    (byName found).has name = true ↔ name ∈ names found := by
  rw [Entries.has_iff_mem_keys, h.keys_byName, List.mem_eraseDups]

/-! ## What is found by simple name -/

/-- What is found by simple name for a type of marker, from its markers on fields and on methods in
their order. -/
inductive Accesses (type : String) (fields methods : List Accessible) :
    Except Fault (Entries String Accessible) → Prop where
  /-- The first method that shares its name with a field is reported. -/
  | conflict {name : String} (first : (names methods).find? (· ∈ names fields) = some name) :
      Accesses type fields methods (.error (.conflict type name))
  /-- Each name has the first marker on a member of that name. -/
  | members {found : Entries String Accessible}
      (apart : ∀ name ∈ names methods, name ∉ names fields)
      (keys : found.keys = (names fields).eraseDups ++ (names methods).eraseDups)
      (values : ∀ name, found.get? name = (fields ++ methods).find? fun a => a.name? = some name) :
      Accesses type fields methods (.ok found)

variable {type : String} {fields methods : List Accessible}
  {outcome outcome' : Except Fault (Entries String Accessible)}

theorem exists_first_iff :
    (∃ name, (names methods).find? (· ∈ names fields) = some name) ↔
      ∃ name ∈ names methods, name ∈ names fields := by
  rw [← Option.isSome_iff_exists, List.find?_isSome]
  simp

/-- The rules leave one outcome. -/
theorem Accesses.unique (h : Accesses type fields methods outcome)
    (h' : Accesses type fields methods outcome') : outcome = outcome' := by
  cases h with
  | conflict first =>
    obtain ⟨shared, hm, hf⟩ := exists_first_iff.1 ⟨_, first⟩
    cases h' with
    | conflict first' => rw [Option.some.inj (first.symm.trans first')]
    | members apart' => exact absurd hf (apart' shared hm)
  | @members found apart keys values =>
    cases h' with
    | conflict first' =>
      obtain ⟨shared, hm, hf⟩ := exists_first_iff.1 ⟨_, first'⟩
      exact absurd hf (apart shared hm)
    | members apart' keys' values' =>
      have hdistinct : found.Distinct := by
        rw [Entries.Distinct, keys]
        refine (Entries.nodup_eraseDups _).append (Entries.nodup_eraseDups _) fun name hf hm => ?_
        exact apart name (List.mem_eraseDups.1 hm) (List.mem_eraseDups.1 hf)
      rw [Entries.eq_of_keys_eq hdistinct (keys.trans keys'.symm) fun name =>
        (values name).trans (values' name).symm]

theorem Accesses.conflict_iff (h : Accesses type fields methods outcome) :
    (∃ name, outcome = .error (.conflict type name)) ↔
      ∃ name ∈ names methods, name ∈ names fields := by
  cases h with
  | conflict first => exact ⟨fun _ => exists_first_iff.1 ⟨_, first⟩, fun _ => ⟨_, rfl⟩⟩
  | members apart =>
    constructor
    · rintro ⟨_, ⟨⟩⟩
    · rintro ⟨name, hm, hf⟩
      exact absurd hf (apart name hm)

end Accessible

/-- The names of the fields are collected in full before the methods are looked at, so a shared name
is met at the first method that has it. -/
theorem accesses_accessibleByName (type : String) (fields : List (Marker Field))
    (methods : List (Marker Method)) (hfields : Accessible.Placed (fields.map .field))
    (hmethods : Accessible.Placed (methods.map .method)) :
    Accessible.Accesses type (fields.map .field) (methods.map .method)
      ((accessibleByName fields methods).mapError (.conflict type)) := by
  have hshares : (fun a : Accessible => (byName (fields.map .field)).has a.memberName) =
      (fun name => decide (name ∈ Accessible.names (fields.map .field))) ∘ (·.memberName) := by
    funext a
    rw [Bool.eq_iff_iff, hfields.has_byName]
    simp
  have hfind : (Accessible.names (methods.map .method)).find?
      (· ∈ Accessible.names (fields.map .field)) =
        ((methods.map Accessible.method).find? fun a =>
          (byName (fields.map .field)).has a.memberName).map (·.memberName) := by
    rw [hmethods.names_eq, List.find?_map, hshares]
  unfold accessibleByName
  dsimp only
  split
  next a ha =>
    rw [ha] at hfind
    exact .conflict hfind
  next hnone =>
    rw [hnone, Option.map_none, List.find?_eq_none] at hfind
    refine .members (fun name hm => by simpa using hfind name hm) ?_ fun name => ?_
    · rw [Entries.keys, List.map_append, ← hfields.keys_byName, ← hmethods.keys_byName]
      rfl
    · rw [Entries.get?_append, hfields.get?_byName, hmethods.get?_byName, List.find?_append]

/-! ## One type of marker in an index -/

section Members

variable {μ κ : Type} [Identified μ κ] {t : MemberTable μ (List (Marker μ))} {type : String}
  {ms : List (Marker μ)}

theorem Host.MemberTable.Lists.isSome_element (h : t.Lists type ms) {m : Marker μ} (hm : m ∈ ms) :
    m.element.isSome = true := by
  obtain ⟨e, -, -, helement⟩ := h.members m hm
  rw [← Option.isSome_map, helement]
  rfl

/-- The simple names of the markers of a type are those of the members that carry one. -/
theorem Host.MemberTable.Lists.mem_names_iff [DecidableEq κ] (ht : t.Attributed) (h : t.Lists type ms)
    {simpleName : μ → String} (hname : ∀ a b, identity a = identity b → simpleName a = simpleName b)
    {name : String} : (∃ m ∈ ms, m.element.map simpleName = some name) ↔
      ∃ member, simpleName member = name ∧ ∃ m ∈ (t.get? member).getD [], m.type = type := by
  constructor
  · rintro ⟨m, hm, hmname⟩
    obtain ⟨e, he, hme, helement⟩ := h.members m hm
    obtain ⟨member, hmember, rfl⟩ := Option.map_eq_some_iff.1 hmname
    rw [hmember, Option.map_some, Option.some.injEq] at helement
    have hget : t.get? member = some e.2 :=
      (MemberTable.get?_eq_some_iff ht.distinct).2 ⟨e, he, helement.symm, rfl⟩
    rw [h.all, List.mem_filter] at hm
    exact ⟨member, rfl, m, by rwa [hget], by simpa using hm.2⟩
  · rintro ⟨member, rfl, m, hm, htype⟩
    cases hget : t.get? member with
    | none =>
      rw [hget] at hm
      cases hm
    | some data =>
      rw [hget, Option.getD_some] at hm
      obtain ⟨e, he, hidentity, rfl⟩ := (MemberTable.get?_eq_some_iff ht.distinct).1 hget
      obtain ⟨element, helement, hsame⟩ := Option.map_eq_some_iff.1 (ht.elements e he m hm)
      refine ⟨m, ?_, ?_⟩
      · rw [h.all]
        exact List.mem_filter.2 ⟨List.mem_flatMap.2 ⟨e, he, hm⟩, by simpa using htype⟩
      · rw [helement, Option.map_some, hname element member (hsame.trans hidentity)]

end Members

namespace Index

theorem accessibleMembers_ofFindings (found : Findings) (source : Source) (type : String) :
    (ofFindings found source).accessibleMembers type =
      (accessibleByName ((ofFindings found source).fieldMarkers type)
        ((ofFindings found source).methodMarkers type)).mapError (.conflict type) := by
  generalize hx : ofFindings found source = x
  have hall : x.accessible = accessibleByType x.fieldsByType x.methodsByType := by
    rw [← hx]
    rfl
  rw [accessibleMembers, hall, accessibleByType, Entries.get?_map_pair, fieldMarkers, methodMarkers]
  split_ifs with hkey
  · cases accessibleByName ((x.fieldsByType.get? type).getD [])
      ((x.methodsByType.get? type).getD []) <;> rfl
  · -- A type without a table is on no field and on no method.
    rw [List.mem_append, List.mem_filter, ← Entries.has_iff_mem_keys, ← Entries.has_iff_mem_keys,
      not_or] at hkey
    have hfields : x.fieldsByType.get? type = none := by simpa [Entries.has] using hkey.1
    have hmethods : x.methodsByType.get? type = none := by
      simpa [Entries.has, hfields] using hkey.2
    rw [hfields, hmethods]
    rfl

variable {found : Findings} (source : Source) (type : String)

theorem accesses_ofFindings (h : found.Regular) :
    Accessible.Accesses type (((ofFindings found source).fieldMarkers type).map .field)
      (((ofFindings found source).methodMarkers type).map .method)
      ((ofFindings found source).accessibleMembers type) := by
  have hfields := lists_groupByType h.fields type
  have hmethods := lists_groupByType h.methods type
  rw [accessibleMembers_ofFindings]
  refine accesses_accessibleByName type _ _ ?_ ?_
  · refine Accessible.placed_iff.2 (List.forall_mem_map.2 fun m hm => ?_)
    exact Option.isSome_map.trans (hfields.isSome_element hm)
  · refine Accessible.placed_iff.2 (List.forall_mem_map.2 fun m hm => ?_)
    exact Option.isSome_map.trans (hmethods.isSome_element hm)

theorem mem_fieldNames_iff (h : found.Regular) {name : String} :
    name ∈ Accessible.names (((ofFindings found source).fieldMarkers type).map .field) ↔
      ∃ f : Field, f.name = name ∧ ∃ d ∈ (ofFindings found source).onField f, d.type = type :=
  Accessible.mem_names_field.trans <| (lists_groupByType h.fields type).mem_names_iff h.fields
    fun _ _ hsame => congrArg Prod.snd hsame

theorem mem_methodNames_iff (h : found.Regular) {name : String} :
    name ∈ Accessible.names (((ofFindings found source).methodMarkers type).map .method) ↔
      ∃ m : Method, m.signature.name = name ∧
        ∃ d ∈ (ofFindings found source).onMethod m, d.type = type :=
  Accessible.mem_names_method.trans <| (lists_groupByType h.methods type).mem_names_iff h.methods
    fun _ _ hsame => congrArg (fun k : String × Signature => k.2.name) hsame

end Index

/-! ## The index of a host type -/

namespace Index

/-- What is found by simple name for a type of marker on a host type follows the rules; a conflict
is reported exactly when a field and a method of one simple name both carry a marker of the type;
and every index with the same markers of the type answers the same, whatever else is in it. -/
theorem accessibleMembers_ofType (g : TypeGraph) (id : TypeId) (h : Hierarchy) (o : Options)
    (type : String) :
    let x := ofType g id h o
    (∀ outcome, x.accessibleMembers type = outcome ↔
      Accessible.Accesses type ((x.fieldMarkers type).map .field)
        ((x.methodMarkers type).map .method) outcome) ∧
    ((∃ name, x.accessibleMembers type = .error (.conflict type name)) ↔
      ∃ (f : Field) (m : Method), f.name = m.signature.name ∧
        (∃ d ∈ x.onField f, d.type = type) ∧ ∃ d ∈ x.onMethod m, d.type = type) ∧
    ∀ (found : Findings) (source : Source), let y := ofFindings found source
      y.fieldMarkers type = x.fieldMarkers type → y.methodMarkers type = x.methodMarkers type →
        y.accessibleMembers type = x.accessibleMembers type := by
  intro x
  have hregular : x.findings.Regular := Findings.regular_ofChain _ _ _
  have hrules : Accessible.Accesses type ((x.fieldMarkers type).map .field)
      ((x.methodMarkers type).map .method) (x.accessibleMembers type) :=
    accesses_ofFindings .live type hregular
  refine ⟨fun outcome => ⟨fun heq => heq ▸ hrules, hrules.unique⟩, ?_, ?_⟩
  · refine hrules.conflict_iff.trans ⟨?_, ?_⟩
    · rintro ⟨name, hm, hf⟩
      obtain ⟨m, rfl, hmarked⟩ := (mem_methodNames_iff .live type hregular).1 hm
      obtain ⟨f, hname, hmarked'⟩ := (mem_fieldNames_iff .live type hregular).1 hf
      exact ⟨f, m, hname, hmarked', hmarked⟩
    · rintro ⟨f, m, hname, hmarked', hmarked⟩
      exact ⟨f.name, (mem_methodNames_iff .live type hregular).2 ⟨m, hname.symm, hmarked⟩,
        (mem_fieldNames_iff .live type hregular).2 ⟨f, rfl, hmarked'⟩⟩
  · intro found source y hfields hmethods
    calc y.accessibleMembers type
        = (accessibleByName (y.fieldMarkers type) (y.methodMarkers type)).mapError
            (.conflict type) := accessibleMembers_ofFindings found source type
      _ = (accessibleByName (x.fieldMarkers type) (x.methodMarkers type)).mapError
            (.conflict type) := by rw [hfields, hmethods]
      _ = x.accessibleMembers type := (accessibleMembers_ofFindings x.findings .live type).symm

/-! ### A name that is shared under one type of two -/

/-- A class with a field and a method of one name. The field carries two types of markers. -/
def sharedName (onMethod : List (Marker Unit)) : TypeGraph :=
  ⟨#[{ name := "Service"
       fields := [⟨"Service", "value", "int", [⟨"Exposed", .empty, none⟩, ⟨"Column", .empty, none⟩]⟩]
       methods := [⟨"Service", ⟨"value", [], "int"⟩, false, false, [], onMethod⟩] }]⟩

/-- With one of the types on the method too, that type is withheld and the other one is found as
before. -/
theorem accessibleMembers_sharedName :
    let x := ofType (sharedName []) 0 .exact {}
    let y := ofType (sharedName [⟨"Exposed", .empty, none⟩]) 0 .exact {}
    (∃ name, y.accessibleMembers "Exposed" = .error (.conflict "Exposed" name)) ∧
      y.accessibleMembers "Column" = x.accessibleMembers "Column" ∧
      ∃ found, x.accessibleMembers "Column" = .ok found ∧ found.keys = ["value"] := by
  intro x y
  refine ⟨?_, ?_, [("value", _)], rfl, rfl⟩
  · refine (accessibleMembers_ofType _ 0 .exact {} "Exposed").2.1.2 ?_
    refine ⟨⟨"Service", "value", "int", []⟩, ⟨"Service", ⟨"value", [], "int"⟩, false, false, [], []⟩,
      rfl, ⟨⟨"Exposed", _, _⟩, List.mem_cons_self, rfl⟩, ⟨⟨"Exposed", _, _⟩, List.mem_cons_self, rfl⟩⟩
  · exact (accessibleMembers_ofType (sharedName []) 0 .exact {} "Column").2.2 y.findings .live
      rfl rfl

end Index

end MarkerIndex
