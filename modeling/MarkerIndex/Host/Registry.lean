/-
Registered types, and which types may stand for which.

A registry gives each name at most one type. A type is assignable to the types of its chain by
name; a name that is not registered is assignable to itself alone.
-/
import MarkerIndex.Host.Chain

namespace MarkerIndex.Host

/-- Whether a value of the type named second may stand where the type named first is expected. -/
abbrev Hierarchy := (target source : String) → Bool

namespace Hierarchy

/-- Equal names alone are assignable. -/
def exact : Hierarchy := fun target source => target == source

/-- Equal names and the listed pairs are assignable. -/
def ofPairs (pairs : List (String × String)) : Hierarchy := fun target source =>
  target == source || pairs.contains (target, source)

end Hierarchy

/-- Types by name. -/
structure Registry where
  types : Entries String TypeId := []

namespace Registry

def get? (r : Registry) (name : String) : Option TypeId := r.types.get? name

def contains (r : Registry) (name : String) : Bool := r.types.has name

/-- The names that have types, in alphabetical order. -/
def names (r : Registry) : List String := r.types.keys.mergeSort fun a b => a ≤ b

def size (r : Registry) : Nat := r.types.length

/-- The registry with a type under its name; another type of that name is refused. -/
def register (g : TypeGraph) (r : Registry) (id : TypeId) : Except Fault Registry :=
  let name := g.name id
  match r.get? name with
  | none => .ok ⟨r.types ++ [(name, id)]⟩
  | some known => if known = id then .ok r else .error (.refused (.typeRegistered name))

def remove (r : Registry) (name : String) : Registry :=
  ⟨r.types.filter fun e => e.1 ≠ name⟩

/-- Assignability by registered types. Nothing is left out of these chains, so going up ends. -/
def hierarchy (g : TypeGraph) (r : Registry) : Hierarchy := fun target source =>
  target == source ||
    match r.get? source with
    | none => false
    | some id => (g.chain id true true).any fun t => g.name t == target

end Registry

end MarkerIndex.Host
