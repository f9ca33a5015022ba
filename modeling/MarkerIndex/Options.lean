/-
Options of an index: how far inheritance reaches and what is read from a class descriptor.
-/
namespace MarkerIndex

/-- How the return types of two methods are compared when one may override the other. -/
inductive ReturnPolicy where
  /-- The overriding type must be assignable to the overridden one. -/
  | covariant
  /-- Both types must be the same. -/
  | exact
  deriving DecidableEq, Hashable, Repr

/-- What an index covers. -/
structure Options where
  /-- Superclasses and interfaces are followed. -/
  inherits : Bool := true
  /-- Universal base types take part. -/
  includeRoot : Bool := false
  returnPolicy : ReturnPolicy := .covariant
  /-- Markers that are not visible at run time are read too. -/
  includeInvisible : Bool := false
  /-- How many markers and arrays may be open at once. -/
  maxNesting : Nat := 64
  deriving DecidableEq, Hashable, Repr

def Options.declaredOnly : Options := { inherits := false }

/-- An override repeats the return type. -/
def Options.strict : Options := { returnPolicy := .exact }

end MarkerIndex
