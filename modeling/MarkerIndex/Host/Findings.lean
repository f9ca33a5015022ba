/-
Findings: the markers of a type and its members, as read from one source.

From a host type the chain is scanned in order, so what is declared nearer to the type wins: for
each type of marker its first declaration, for each member its first description that carries a
marker, for each method the leaf that stands for its family. A class descriptor has findings on the
class alone.
-/
import MarkerIndex.ClassFile.Collect
import MarkerIndex.Host.Override

namespace MarkerIndex.Host

/-- Markers of each parameter of a member, by place. -/
abbrev ParameterMarkers := List (List (Marker Parameter))

/-- The markers of a type and its members. -/
structure Findings where
  typeName : String
  typeMarkers : Entries String (Marker TypeId)
  fields : MemberTable Field (List (Marker Field))
  methods : MemberTable Method (List (Marker Method))
  constructors : MemberTable Constructor (List (Marker Constructor))
  methodParameters : MemberTable Method ParameterMarkers
  constructorParameters : MemberTable Constructor ParameterMarkers

/-- The markers on an element, the first of each type. -/
def attach {ε : Type} (markers : List (Marker Unit)) (element : ε) : List (Marker ε) :=
  (MarkerOf.firstOfEachType (markers.map (·.withElement (some element)))).values

def parameterMarkers (ps : List Parameter) : ParameterMarkers :=
  ps.map fun p => attach p.markers p

/-- The data of the members that satisfy `marked`, the first description of each one winning. -/
def scan {μ κ β : Type} [Identified μ κ] [DecidableEq κ] (members : List μ) (marked : μ → Bool)
    (data : μ → β) : MemberTable μ β :=
  (members.filter marked).foldl (fun table m => table.insertNew m (data m)) []

/-- The first marker of each type along a chain, on the type that declares it. -/
def typeMarkersOf (chain : List (TypeId × TypeDecl)) : Entries String (Marker TypeId) :=
  MarkerOf.firstOfEachType
    (chain.flatMap fun (id, t) => t.markers.map (·.withElement (some id)))

/-- The types of a chain with their declarations. -/
def TypeGraph.links (g : TypeGraph) (ids : List TypeId) : List (TypeId × TypeDecl) :=
  ids.filterMap fun id => (g.type? id).map fun t => (id, t)

/-- The findings along a chain. -/
def Findings.ofChain (typeName : String) (chain : List (TypeId × TypeDecl)) (rule : OverrideRule) :
    Findings :=
  let decls := chain.map (·.2)
  let fields := decls.flatMap (·.fields)
  let methods := decls.flatMap (·.methods)
  let constructors := decls.flatMap (·.constructors)
  { typeName
    typeMarkers := typeMarkersOf chain
    fields := scan fields (!·.markers.isEmpty) fun f => attach f.markers f
    methods := rule.resolve decls
    constructors := scan constructors (!·.markers.isEmpty) fun c => attach c.markers c
    methodParameters := scan methods (anyMarked ·.parameters) (parameterMarkers ·.parameters)
    constructorParameters :=
      scan constructors (anyMarked ·.parameters) (parameterMarkers ·.parameters) }

/-- The findings on a host type. They stand for something only where the type has a chain
(`TypeGraph.chain?`). -/
def Findings.ofType (g : TypeGraph) (id : TypeId) (h : Hierarchy) (o : Options) : Findings :=
  ofChain (g.name id) (g.links (g.chain id o.inherits o.includeRoot)) ⟨h, o.returnPolicy⟩

/-- The findings on a class descriptor. -/
def Findings.ofClass (c : ClassFile.ClassRecord) : Findings :=
  { typeName := c.header.name
    typeMarkers := c.markers.map fun (type, m) => (type, m.withElement none)
    fields := []
    methods := []
    constructors := []
    methodParameters := []
    constructorParameters := [] }

/-- The findings with the markers of members on no element; the members keep them. -/
def Findings.detached (f : Findings) : Findings :=
  let detach {μ ε : Type} (t : MemberTable μ (List (Marker ε))) : MemberTable μ (List (Marker ε)) :=
    t.map fun (member, ms) => (member, ms.map (·.withElement none))
  { f with
    fields := detach f.fields
    methods := detach f.methods
    constructors := detach f.constructors }

end MarkerIndex.Host
