/-
Overriding methods and the markers they take over.

A method overrides one of the same name and parameter types when its return type is compatible;
static and private methods take no part. Along a chain the leaves are the methods that stand for
their families: a method that a leaf overrides is passed over, and one that overrides a leaf takes
its place. A leaf carries the markers of every method that it overrides, the first of each type.
-/
import MarkerIndex.Host.Registry
import MarkerIndex.Marker
import MarkerIndex.Options

namespace MarkerIndex.Host

/-- How overriding is decided: by a hierarchy of types and a policy on return types. -/
structure OverrideRule where
  hierarchy : Hierarchy
  policy : ReturnPolicy

namespace OverrideRule

variable (rule : OverrideRule)

/-- The signature overrides the other. -/
def signature (candidate target : Signature) : Bool :=
  candidate.name == target.name && candidate.parameters == target.parameters &&
    match rule.policy with
    | .exact => candidate.returns == target.returns
    | .covariant => rule.hierarchy target.returns candidate.returns

/-- The method overrides the other; itself only if `includeSelf`. -/
def method (candidate target : Method) (includeSelf : Bool) : Bool :=
  if isSame candidate target then includeSelf
  else
    !(candidate.isStatic || target.isStatic) && !(candidate.isPrivate || target.isPrivate) &&
      rule.signature candidate.signature target.signature

end OverrideRule

/-- A method that may become a leaf: it carries a marker, takes a parameter or gives a value. -/
def Method.isCandidate (m : Method) : Bool := !m.markers.isEmpty || !m.signature.isVoidNoArg

namespace OverrideRule

variable (rule : OverrideRule)

/-! ## Leaves -/

/-- The leaves when one more method is met. -/
def meet (leaves : List Method) (m : Method) : List Method :=
  if leaves.any fun leaf => rule.method leaf m false then leaves
  else
    match leaves.findIdx? fun leaf => rule.method m leaf false with
    | some slot => leaves.set slot m
    | none => leaves ++ [m]

/-- The candidates of a type. -/
def candidates (t : TypeDecl) : List Method := t.methods.filter Method.isCandidate

/-- The leaves of a chain. The candidates of its first type are leaves in any case. -/
def leaves (chain : List TypeDecl) : List Method :=
  match chain with
  | [] => []
  | first :: rest => (rest.flatMap candidates).foldl rule.meet (candidates first)

/-! ## Markers -/

/-- The markers of a leaf: those of the methods in the chain that it overrides and its own, the
first of each type in the order of the chain. -/
def mergedMarkers (leaf : Method) (chain : List TypeDecl) : List (Marker Method) :=
  let family := (chain.flatMap (·.methods)).filter fun m => rule.method leaf m true
  (MarkerOf.firstOfEachType ((family.flatMap (·.markers)).map (·.withElement (some leaf)))).values

/-- The leaves that carry markers, with them. -/
def resolve (chain : List TypeDecl) : MemberTable Method (List (Marker Method)) :=
  (rule.leaves chain).foldl
    (fun table leaf =>
      let markers := rule.mergedMarkers leaf chain
      if markers.isEmpty then table else table.insert leaf markers) []

end OverrideRule

end MarkerIndex.Host
