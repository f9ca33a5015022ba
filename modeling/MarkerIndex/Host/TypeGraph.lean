/-
Host types and the links between them.

A type has its own identity, its index in the graph; several types may share a name. Its base is
set at most once; its interfaces and members only grow. Links may form cycles, and a type may be
its own base or interface.
-/
import MarkerIndex.Fault
import MarkerIndex.Host.Member
import MarkerIndex.Value.Text

namespace MarkerIndex.Host

/-! ## Types -/

/-- What a type is. -/
structure Modifiers where
  isInterface : Bool := false
  isAbstract : Bool := false
  isAnnotation : Bool := false
  isEnum : Bool := false
  isFinal : Bool := false
  /-- The universal base type. -/
  isRoot : Bool := false
  deriving DecidableEq, Repr

namespace Modifiers

/-- The modifiers with their names, in order. -/
def named (m : Modifiers) : List (Bool × String) :=
  [(m.isInterface, "INTERFACE"), (m.isAbstract, "ABSTRACT"), (m.isAnnotation, "ANNOTATION"),
    (m.isEnum, "ENUM"), (m.isFinal, "FINAL"), (m.isRoot, "ROOT")]

/-- The modifiers as a number, the first one being its lowest bit. -/
def bits (m : Modifiers) : Nat := m.named.foldr (fun p n => 2 * n + p.1.toNat) 0

/-- The modifiers of either. -/
def union (a b : Modifiers) : Modifiers :=
  ⟨a.isInterface || b.isInterface, a.isAbstract || b.isAbstract, a.isAnnotation || b.isAnnotation,
    a.isEnum || b.isEnum, a.isFinal || b.isFinal, a.isRoot || b.isRoot⟩

/-- An interface is abstract. -/
def interface : Modifiers := { isInterface := true, isAbstract := true }

/-- The names of the modifiers that are set. -/
def text (m : Modifiers) : String :=
  let names := (m.named.filter (·.1)).map (·.2)
  if names.isEmpty then "0x0" else " | ".intercalate names

end Modifiers

/-- The identity of a type. -/
abbrev TypeId := Nat

/-- A type with everything declared on it directly. -/
structure TypeDecl where
  name : String
  modifiers : Modifiers := {}
  base : Option TypeId := none
  interfaces : List TypeId := []
  fields : List Field := []
  methods : List Method := []
  constructors : List Constructor := []
  markers : List (Marker Unit) := []

/-- Members and markers as they are written down. -/
structure Declarations where
  fields : List FieldSpec := []
  methods : List MethodSpec := []
  constructors : List ConstructorSpec := []
  markers : List (Marker Unit) := []

/-- The type with more members and markers behind those it has. -/
def TypeDecl.extend (t : TypeDecl) (d : Declarations) : TypeDecl :=
  { t with
    fields := t.fields ++ d.fields.map (·.declare t.name)
    methods := t.methods ++ d.methods.map (·.declare t.name)
    constructors := t.constructors ++ d.constructors.map (·.declare t.name)
    markers := t.markers ++ d.markers }

/-! ## The graph -/

structure TypeGraph where
  types : Array TypeDecl := #[]

namespace TypeGraph

/-- The type of an identity. -/
def type? (g : TypeGraph) (id : TypeId) : Option TypeDecl := g.types[id]?

def size (g : TypeGraph) : Nat := g.types.size

def name (g : TypeGraph) (id : TypeId) : String := ((g.type? id).map (·.name)).getD ""

def base? (g : TypeGraph) (id : TypeId) : Option TypeId := (g.type? id).bind (·.base)

def interfaces (g : TypeGraph) (id : TypeId) : List TypeId :=
  ((g.type? id).map (·.interfaces)).getD []

/-- The type is a universal base type. -/
def isRoot (g : TypeGraph) (id : TypeId) : Bool :=
  ((g.type? id).map (·.modifiers.isRoot)).getD false

/-- The graph with one more type, and its identity. -/
def add (g : TypeGraph) (t : TypeDecl) : TypeId × TypeGraph := (g.size, ⟨g.types.push t⟩)

/-- The graph with one type changed. -/
def update (g : TypeGraph) (id : TypeId) (f : TypeDecl → TypeDecl) : TypeGraph :=
  ⟨g.types.modify id f⟩

/-- The graph with the base of a type set; a base that is set stays. -/
def setBase (g : TypeGraph) (id base : TypeId) : Except Fault TypeGraph :=
  match g.base? id with
  | some _ => .error (.refused (.baseAlreadySet (g.name id) (g.name base)))
  | none => .ok (g.update id fun t => { t with base := some base })

/-- The graph with one more interface of a type. -/
def addInterface (g : TypeGraph) (id interface : TypeId) : TypeGraph :=
  g.update id fun t => { t with interfaces := t.interfaces ++ [interface] }

/-- The graph with more members and markers of a type. -/
def addMembers (g : TypeGraph) (id : TypeId) (d : Declarations) : TypeGraph :=
  g.update id (·.extend d)

/-- The diagnostic text of a type: its name, modifiers and base, and how much is declared. -/
def describe (g : TypeGraph) (id : TypeId) : String :=
  match g.type? id with
  | none => ""
  | some t =>
    let base := match t.base with
      | none => "None"
      | some b => "Some(" ++ Text.quoted (g.name b) ++ ")"
    "TypeDescriptor \x7b name: " ++ Text.quoted t.name ++ ", flags: TypeFlags("
      ++ t.modifiers.text ++ "), base: " ++ base ++ ", interfaces: " ++ toString t.interfaces.length
      ++ ", fields: " ++ toString t.fields.length ++ ", methods: " ++ toString t.methods.length
      ++ ", constructors: " ++ toString t.constructors.length ++ ", annotations: "
      ++ toString t.markers.length ++ " \x7d"

end TypeGraph

end MarkerIndex.Host
