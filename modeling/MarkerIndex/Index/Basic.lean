/-
The index of a type: its findings, grouped for every way of asking.

Markers of members are grouped by the type of the marker and by the type that declares the member;
markers of parameters are grouped by type with every place kept. For each type of marker the fields
and methods that carry it are also found by their simple names, unless a field and a method share
one: then this one table is withheld and asking for it is a conflict.
-/
import MarkerIndex.Host.Findings

namespace MarkerIndex

open Host

/-! ## Groups -/

/-- The markers of a table, entry by entry. -/
def Host.MemberTable.markers {μ ε : Type} (t : MemberTable μ (List (Marker ε))) :
    List (Marker ε) :=
  t.flatMap (·.2)

/-- Markers by type, the types and the markers of each in the order in which they are met. -/
def groupByType {ε : Type} (ms : List (Marker ε)) : Entries String (List (Marker ε)) :=
  ms.foldl (fun groups m => groups.alter m.type [] (· ++ [m])) []

/-- The markers of one type at each place. -/
def keepType (type : String) (places : ParameterMarkers) : ParameterMarkers :=
  places.map fun place => place.filter fun m => m.type = type

/-- The members with a marker of a type on some parameter. -/
def filterPlaces {μ : Type} (type : String) (t : MemberTable μ ParameterMarkers) :
    MemberTable μ ParameterMarkers :=
  (t.map fun e => (e.1, keepType type e.2)).filter fun e => e.2.any fun place => !place.isEmpty

/-- The texts of a list, each once, in order. -/
def distinct (names : List String) : List String :=
  names.foldl (fun found name => if found.contains name then found else found ++ [name]) []

/-- Markers of parameters by type. -/
def groupPlaces {μ : Type} (t : MemberTable μ ParameterMarkers) :
    Entries String (MemberTable μ ParameterMarkers) :=
  (distinct ((t.flatMap fun e => e.2.flatten).map (·.type))).map fun type =>
    (type, filterPlaces type t)

/-! ## Declaring types -/

/-- The markers of the members that one type declares. -/
structure Declared where
  fields : List (Marker Field) := []
  methods : List (Marker Method) := []
  constructors : List (Marker Constructor) := []

/-- No member that the type declares carries a marker. -/
def Declared.isEmpty (d : Declared) : Bool :=
  d.fields.isEmpty && d.methods.isEmpty && d.constructors.isEmpty

/-- The markers by declaring type: first those of fields, then of methods, then of constructors. -/
def groupByOwner (f : Findings) : Entries String Declared :=
  let groups := f.fields.foldl (fun groups (field, ms) =>
    Entries.alter groups field.owner {} fun d => { d with fields := d.fields ++ ms }) []
  let groups := f.methods.foldl (fun groups (method, ms) =>
    Entries.alter groups method.owner {} fun d => { d with methods := d.methods ++ ms }) groups
  f.constructors.foldl (fun groups (constructor, ms) =>
    Entries.alter groups constructor.owner {} fun d =>
      { d with constructors := d.constructors ++ ms }) groups

/-! ## Accessible members -/

/-- A marker on a field or method that is found by the simple name of the member. -/
inductive Accessible where
  | field (marker : Marker Field)
  | method (marker : Marker Method)

namespace Accessible

/-- The simple name of the member; empty when the marker is on no element. -/
def memberName : Accessible → String
  | .field m => (m.element.map (·.name)).getD ""
  | .method m => (m.element.map (·.signature.name)).getD ""

/-- The marker without its element. -/
def marker : Accessible → Marker Unit
  | .field m => m.detached
  | .method m => m.detached

end Accessible

/-- The first of each simple name. -/
def byName (found : List Accessible) : Entries String Accessible :=
  Entries.firsts (found.map fun a => (a.memberName, a))

/-- The fields and methods that carry a marker, by simple name; or the name of the first method
that shares its name with a field. -/
def accessibleByName (fields : List (Marker Field)) (methods : List (Marker Method)) :
    Except String (Entries String Accessible) :=
  let fields := byName (fields.map .field)
  let methods := methods.map Accessible.method
  match methods.find? fun m => fields.has m.memberName with
  | some m => .error m.memberName
  | none => .ok (fields ++ byName methods)

/-- The accessible members of every type of marker on fields and methods. -/
def accessibleByType (fields : Entries String (List (Marker Field)))
    (methods : Entries String (List (Marker Method))) :
    Entries String (Except String (Entries String Accessible)) :=
  let types := fields.keys ++ methods.keys.filter fun type => !fields.has type
  types.map fun type =>
    (type, accessibleByName ((fields.get? type).getD []) ((methods.get? type).getD []))

/-! ## The index -/

inductive Source where
  | live
  | binary (endedEarly : Bool)
  deriving DecidableEq, Repr

/-- Findings with their groups. -/
structure Index where
  source : Source
  findings : Findings
  fieldsByType : Entries String (List (Marker Field))
  methodsByType : Entries String (List (Marker Method))
  constructorsByType : Entries String (List (Marker Constructor))
  methodPlacesByType : Entries String (MemberTable Method ParameterMarkers)
  constructorPlacesByType : Entries String (MemberTable Constructor ParameterMarkers)
  byOwner : Entries String Declared
  accessible : Entries String (Except String (Entries String Accessible))

namespace Index

/-! ### Building -/

/-- The index of findings. -/
def ofFindings (f : Findings) (source : Source) : Index :=
  let fieldsByType := groupByType f.fields.markers
  let methodsByType := groupByType f.methods.markers
  { source
    findings := f
    fieldsByType
    methodsByType
    constructorsByType := groupByType f.constructors.markers
    methodPlacesByType := groupPlaces f.methodParameters
    constructorPlacesByType := groupPlaces f.constructorParameters
    byOwner := groupByOwner f
    accessible := accessibleByType fieldsByType methodsByType }

/-- The index of a host type. As its findings do, it stands for something only where the type has a
chain (`TypeGraph.chain?`). -/
def ofType (g : TypeGraph) (id : TypeId) (h : Hierarchy) (o : Options) : Index :=
  ofFindings (.ofType g id h o) .live

/-- The index of the class descriptor in an input. -/
def ofClass (data : Bytes) (target : Option String) (o : Options) : Except Fault Index := do
  let record ← ClassFile.ClassRecord.ofInput data target o
  return ofFindings (.ofClass record) (.binary record.endedEarly)

/-! ### Asking -/

def typeName (x : Index) : String := x.findings.typeName

/-- The marker of a type on the type itself. -/
def classMarker? (x : Index) (type : String) : Option (Marker TypeId) :=
  x.findings.typeMarkers.get? type

/-- The markers of a type on fields. -/
def fieldMarkers (x : Index) (type : String) : List (Marker Field) :=
  (x.fieldsByType.get? type).getD []

/-- The markers of a type on methods. -/
def methodMarkers (x : Index) (type : String) : List (Marker Method) :=
  (x.methodsByType.get? type).getD []

/-- The markers of a type on constructors. -/
def constructorMarkers (x : Index) (type : String) : List (Marker Constructor) :=
  (x.constructorsByType.get? type).getD []

/-- The methods with a marker of a type on a parameter. -/
def methodPlaces (x : Index) (type : String) : MemberTable Method ParameterMarkers :=
  (x.methodPlacesByType.get? type).getD []

/-- The constructors with a marker of a type on a parameter. -/
def constructorPlaces (x : Index) (type : String) : MemberTable Constructor ParameterMarkers :=
  (x.constructorPlacesByType.get? type).getD []

def onField (x : Index) (f : Field) : List (Marker Field) := (x.findings.fields.get? f).getD []

def onMethod (x : Index) (m : Method) : List (Marker Method) :=
  (x.findings.methods.get? m).getD []

def onConstructor (x : Index) (c : Constructor) : List (Marker Constructor) :=
  (x.findings.constructors.get? c).getD []

/-- The markers of the parameters of a method. -/
def onMethodPlaces (x : Index) (m : Method) : ParameterMarkers :=
  (x.findings.methodParameters.get? m).getD []

/-- The markers of the parameters of a constructor. -/
def onConstructorPlaces (x : Index) (c : Constructor) : ParameterMarkers :=
  (x.findings.constructorParameters.get? c).getD []

/-- The markers of the members that a type declares. -/
def declaredBy (x : Index) (owner : String) : Declared := (x.byOwner.get? owner).getD {}

/-- The types that declare members with markers, in alphabetical order. -/
def owners (x : Index) : List String := x.byOwner.keys.mergeSort fun a b => a ≤ b

/-- The fields and methods with a marker of a type, by simple name. -/
def accessibleMembers (x : Index) (type : String) : Except Fault (Entries String Accessible) :=
  match x.accessible.get? type with
  | none => .ok []
  | some (.ok members) => .ok members
  | some (.error name) => .error (.conflict type name)

/-- The types of all markers, each once. -/
def markerTypes (x : Index) : List String :=
  distinct (x.findings.typeMarkers.keys ++ x.fieldsByType.keys ++ x.methodsByType.keys
    ++ x.constructorsByType.keys ++ x.methodPlacesByType.keys ++ x.constructorPlacesByType.keys)

/-- A marker of a type is somewhere. -/
def hasMarker (x : Index) (type : String) : Bool :=
  x.findings.typeMarkers.has type || x.fieldsByType.has type || x.methodsByType.has type
    || x.constructorsByType.has type || x.methodPlacesByType.has type
    || x.constructorPlacesByType.has type

/-- Nothing was found. -/
def isEmpty (x : Index) : Bool :=
  x.findings.typeMarkers.isEmpty && x.findings.fields.isEmpty && x.findings.methods.isEmpty
    && x.findings.constructors.isEmpty && x.findings.methodParameters.isEmpty
    && x.findings.constructorParameters.isEmpty

end Index

end MarkerIndex
