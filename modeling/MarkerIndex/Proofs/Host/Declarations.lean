/-
Which declaration is found. Along a chain the first declaration of a marker type on a type counts,
and of a member the first declaration that carries a marker, however often the member is declared
before without one; of that declaration the first marker of each type counts. What is found is
listed in the order of the declarations that count.

All scans are one fold, which adds an entry for an element if there is none of its key. So the
induction is made once, over the elements in turn, and each scan is a case of it.
-/
import Mathlib.Data.List.Forall2
import MarkerIndex.Host.Findings
import MarkerIndex.Proofs.Layered.Listing

namespace MarkerIndex

/-! ## The first elements of a list -/

section Firsts

variable {α κ : Type} [DecidableEq κ]

/-- `firsts` are the elements of `xs` in front of which there is none of the same key, in their
order. -/
structure Firsts (key : α → κ) (xs firsts : List α) : Prop where
  /-- There is one for each key that occurs, in the order in which the keys are met. -/
  keys : firsts.map key = (xs.map key).eraseDups
  /-- It is the first element of its key. -/
  first : ∀ x ∈ firsts, xs.find? (fun y => key y = key x) = some x

variable {key : α → κ} {xs firsts : List α} {x : α}

theorem firsts_nil (key : α → κ) : Firsts key [] [] := ⟨rfl, by simp⟩

theorem Firsts.mem_keys_iff (h : Firsts key xs firsts) {k : κ} :
    k ∈ firsts.map key ↔ k ∈ xs.map key := by
  rw [h.keys, List.mem_eraseDups]

/-- What is first stays first, whatever follows. -/
theorem Firsts.find?_append (h : Firsts key xs firsts) (more : List α) :
    ∀ y ∈ firsts, (xs ++ more).find? (fun z => key z = key y) = some y := by
  intro y hy
  rw [List.find?_append, h.first y hy]
  rfl

/-- An element of a key that occurs already is not one of the first. -/
theorem Firsts.snoc_old (h : Firsts key xs firsts) (hx : key x ∈ firsts.map key) :
    Firsts key (xs ++ [x]) firsts := by
  refine ⟨?_, h.find?_append [x]⟩
  rw [h.mem_keys_iff, List.mem_map] at hx
  rw [h.keys, List.map_append, List.eraseDups_append]
  simp [List.removeAll, hx]

theorem Firsts.snoc_new (h : Firsts key xs firsts) (hx : key x ∉ firsts.map key) :
    Firsts key (xs ++ [x]) (firsts ++ [x]) := by
  rw [h.mem_keys_iff, List.mem_map, not_exists] at hx
  have hnew : ∀ y ∈ xs, ¬ key y = key x := fun y hy hk => hx y ⟨hy, hk⟩
  refine ⟨?_, List.forall_mem_append.2 ⟨h.find?_append [x], ?_⟩⟩
  · rw [List.map_append, List.map_append, h.keys, List.eraseDups_append]
    have hremoved : [key x].removeAll (xs.map key) = [key x] := by
      simpa [List.removeAll] using hnew
    rw [List.map_singleton, hremoved]
    rfl
  · rw [List.forall_mem_singleton, List.find?_append, List.find?_eq_none.2 (by simpa using hnew)]
    simp

/-- A fold that adds an entry for an element if there is none of its key has the entries of the
first elements. -/
theorem exists_firsts_foldl {β : Type} (key : α → κ) (entry : α → β) {add : List β → α → List β}
    (hadd : ∀ (firsts : List α) (x : α), add (firsts.map entry) x =
      if key x ∈ firsts.map key then firsts.map entry else (firsts ++ [x]).map entry)
    (xs : List α) : ∃ firsts, Firsts key xs firsts ∧ xs.foldl add [] = firsts.map entry := by
  induction xs using List.reverseRecOn with
  | nil => exact ⟨[], firsts_nil key, rfl⟩
  | append_singleton xs x ih =>
    obtain ⟨firsts, h, hfold⟩ := ih
    rw [List.foldl_append, hfold, List.foldl_cons, List.foldl_nil, hadd]
    split
    next hold => exact ⟨firsts, h.snoc_old hold, rfl⟩
    next hnew => exact ⟨firsts ++ [x], h.snoc_new hnew, rfl⟩

theorem Entries.exists_firsts {β : Type} (key : α → κ) (value : α → β) (xs : List α) :
    ∃ first, Firsts key xs first ∧
      Entries.firsts (xs.map fun x => (key x, value x)) = first.map fun x => (key x, value x) := by
  unfold Entries.firsts
  rw [List.foldl_map]
  refine exists_firsts_foldl key (fun x => (key x, value x)) (fun first x => ?_) xs
  have hhas : Entries.has (first.map fun x => (key x, value x)) (key x) = true ↔
      key x ∈ first.map key := by
    rw [Entries.has_iff_mem_keys, Entries.keys, List.map_map]
    rfl
  dsimp only
  unfold Entries.insertNew
  simp only [hhas, List.map_append, List.map_singleton]

end Firsts

namespace Host

/-! ## Markers on an element -/

/-- The markers of an element are the first of each type that are declared on it, on the element. -/
def CarriesFirsts {ε : Type} (markers : List (Marker Unit)) (element : ε) (ms : List (Marker ε)) :
    Prop :=
  ∃ firsts, Firsts (·.type) markers firsts ∧ ms = firsts.map (·.withElement (some element))

theorem carriesFirsts_attach {ε : Type} (markers : List (Marker Unit)) (element : ε) :
    CarriesFirsts markers element (attach markers element) := by
  obtain ⟨firsts, hfirsts, hentries⟩ := Entries.exists_firsts (fun m : Marker Unit => m.type)
    (fun m => m.withElement (some element)) markers
  refine ⟨firsts, hfirsts, ?_⟩
  rw [attach, MarkerOf.firstOfEachType, List.map_map, Entries.values]
  refine (congrArg (List.map Prod.snd) hentries).trans ?_
  rw [List.map_map]
  rfl

/-! ## Members -/

section Members

variable {μ κ : Type} [Identified μ κ] [DecidableEq κ]

/-- A scan has the data of the first marked declaration of each member. -/
theorem exists_firsts_scan {β : Type} (members : List μ) (marked : μ → Bool) (data : μ → β) :
    ∃ firsts, Firsts identity (members.filter marked) firsts ∧
      scan members marked data = firsts.map fun m => (m, data m) := by
  refine exists_firsts_foldl identity (fun m => (m, data m)) (fun firsts m => ?_)
    (members.filter marked)
  have hhas : MemberTable.has (firsts.map fun m => (m, data m)) m = true ↔
      identity m ∈ firsts.map identity := by
    simp [MemberTable.has, isSame]
  unfold MemberTable.insertNew
  simp only [hhas, List.map_append, List.map_singleton]

variable (declared : List μ)

/-- The table lists the members that are declared with a marker, in the order of their first marked
declarations, each as that declaration has it and with its markers. -/
def ListsMarked (markers : μ → List (Marker Unit)) (t : MemberTable μ (List (Marker μ))) : Prop :=
  ∃ firsts, Firsts identity (declared.filter fun m => !(markers m).isEmpty) firsts ∧
    List.Forall₂ (fun m e => e.1 = m ∧ CarriesFirsts (markers m) m e.2) firsts t

/-- The table lists the members that are declared with a marked parameter, in the order of their
first such declarations, each with one list for each parameter, the markers of the parameter. -/
def ListsPlaces (parameters : μ → List Parameter) (t : MemberTable μ ParameterMarkers) : Prop :=
  ∃ firsts, Firsts identity
      (declared.filter fun m => (parameters m).any fun p => !p.markers.isEmpty) firsts ∧
    List.Forall₂ (fun m e => e.1 = m ∧
      List.Forall₂ (fun p place => CarriesFirsts p.markers p place) (parameters m) e.2) firsts t

theorem listsMarked_scan (markers : μ → List (Marker Unit)) :
    ListsMarked declared markers
      (scan declared (fun m => !(markers m).isEmpty) fun m => attach (markers m) m) := by
  obtain ⟨firsts, hfirsts, hscan⟩ := exists_firsts_scan declared
    (fun m => !(markers m).isEmpty) fun m => attach (markers m) m
  refine ⟨firsts, hfirsts, ?_⟩
  rw [hscan, List.forall₂_map_right_iff, List.forall₂_same]
  exact fun m _ => ⟨rfl, carriesFirsts_attach _ _⟩

theorem listsPlaces_scan (parameters : μ → List Parameter) :
    ListsPlaces declared parameters (scan declared (fun m => anyMarked (parameters m))
      fun m => parameterMarkers (parameters m)) := by
  obtain ⟨firsts, hfirsts, hscan⟩ := exists_firsts_scan declared
    (fun m => anyMarked (parameters m)) fun m => parameterMarkers (parameters m)
  refine ⟨firsts, hfirsts, ?_⟩
  rw [hscan, List.forall₂_map_right_iff, List.forall₂_same]
  refine fun m _ => ⟨rfl, ?_⟩
  rw [parameterMarkers, List.forall₂_map_right_iff, List.forall₂_same]
  exact fun p _ => carriesFirsts_attach _ _

end Members

/-! ## Findings -/

/-- The markers that the types of a chain declare, one type after the other, each with its type. -/
def declaredMarkers (chain : List (TypeId × TypeDecl)) : List (TypeId × Marker Unit) :=
  chain.flatMap fun link => link.2.markers.map fun m => (link.1, m)

/-- The findings are the first declarations along the chain. -/
structure Findings.FirstDeclared (chain : List (TypeId × TypeDecl)) (f : Findings) : Prop where
  /-- The first marker of each type, on the type that declares it. -/
  typeMarkers : ∃ firsts, Firsts (fun d => d.2.type) (declaredMarkers chain) firsts ∧
    f.typeMarkers = firsts.map fun d => (d.2.type, d.2.withElement (some d.1))
  fields : ListsMarked (chain.flatMap (·.2.fields)) Field.markers f.fields
  constructors : ListsMarked (chain.flatMap (·.2.constructors)) Constructor.markers f.constructors
  methodParameters :
    ListsPlaces (chain.flatMap (·.2.methods)) Method.parameters f.methodParameters
  constructorParameters :
    ListsPlaces (chain.flatMap (·.2.constructors)) Constructor.parameters f.constructorParameters

theorem exists_firsts_typeMarkers (chain : List (TypeId × TypeDecl)) :
    ∃ firsts, Firsts (fun d => d.2.type) (declaredMarkers chain) firsts ∧
      typeMarkersOf chain = firsts.map fun d => (d.2.type, d.2.withElement (some d.1)) := by
  obtain ⟨firsts, hfirsts, hentries⟩ := Entries.exists_firsts
    (fun d : TypeId × Marker Unit => d.2.type) (fun d => d.2.withElement (some d.1))
    (declaredMarkers chain)
  refine ⟨firsts, hfirsts, ?_⟩
  rw [← hentries, typeMarkersOf, MarkerOf.firstOfEachType, declaredMarkers, List.map_flatMap,
    List.map_flatMap]
  simp only [List.map_map]
  rfl

/-- What is found along any chain are the first declarations, also where types have one name and
members are declared again. -/
theorem firstDeclared_ofChain (typeName : String) (chain : List (TypeId × TypeDecl))
    (rule : OverrideRule) : (Findings.ofChain typeName chain rule).FirstDeclared chain := by
  have hfields : (chain.map (·.2)).flatMap (·.fields) = chain.flatMap (·.2.fields) :=
    List.flatMap_map ..
  have hmethods : (chain.map (·.2)).flatMap (·.methods) = chain.flatMap (·.2.methods) :=
    List.flatMap_map ..
  have hconstructors : (chain.map (·.2)).flatMap (·.constructors) =
      chain.flatMap (·.2.constructors) := List.flatMap_map ..
  constructor
  · exact exists_firsts_typeMarkers chain
  · rw [← hfields]
    exact listsMarked_scan _ _
  · rw [← hconstructors]
    exact listsMarked_scan _ _
  · rw [← hmethods]
    exact listsPlaces_scan _ _
  · rw [← hconstructors]
    exact listsPlaces_scan _ _

/-- What is found on a host type are the first declarations along its chain, for the markers of the
type, for fields and constructors, and for the parameters of methods and constructors. -/
theorem first_declaration_found (g : TypeGraph) (id : TypeId) (h : Hierarchy) (o : Options) :
    (Findings.ofType g id h o).FirstDeclared
      (g.links (g.chain id o.inherits o.includeRoot)) :=
  firstDeclared_ofChain _ _ _

end Host

end MarkerIndex
