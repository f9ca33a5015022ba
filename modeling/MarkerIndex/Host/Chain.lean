/-
The chain of a type: the types whose declarations it inherits, nearest first.

The chain starts with the type and its superclasses, from which universal base types are left out
unless they are asked for. Then, for each of these classes in turn, its interfaces follow, each
with the interfaces behind it right after it. No type is listed twice.
-/
import MarkerIndex.Host.TypeGraph

namespace MarkerIndex.Host.TypeGraph

/-! ## Superclasses -/

/-- Goes up from `next`, adding to the classes found so far, until there is no base or one that was
found already. Nothing is given when `steps` do not suffice. -/
def climb (g : TypeGraph) (includeRoot : Bool) :
    Nat → Option TypeId → List TypeId → Option (List TypeId)
  | _, none, found => some found
  | 0, some _, _ => none
  | steps + 1, some id, found =>
    if found.contains id then some found
    else
      climb g includeRoot steps (g.base? id)
        (if g.isRoot id && !includeRoot then found else found ++ [id])

/-- Bases taken from a type on come back to one that was found within twice as many steps as there
are types, or never: only a cycle of universal base types that are left out is never found. -/
def climbSteps (g : TypeGraph) : Nat := 2 * g.size + 2

/-- The type and its superclasses, if going up comes to an end. -/
def lineage? (g : TypeGraph) (id : TypeId) (includeRoot : Bool) : Option (List TypeId) :=
  climb g includeRoot g.climbSteps (g.base? id) [id]

/-! ## Interfaces -/

/-- Adds the interfaces of a type that were not found yet, each followed by its own. `depth` is how
far down new interfaces may still lie; each one is new, so the number of types suffices. -/
def gather (g : TypeGraph) : Nat → TypeId → List TypeId → List TypeId
  | 0, _, found => found
  | depth + 1, id, found =>
    (g.interfaces id).foldl
      (fun found i => if found.contains i then found else gather g depth i (found ++ [i])) found

/-! ## The chain -/

/-- The classes, and then the interfaces of each. -/
def withInterfaces (g : TypeGraph) (classes : List TypeId) : List TypeId :=
  classes.foldl (fun found id => gather g (g.size + 1) id found) classes

/-- The chain of a type; without inheritance it is the type alone. It stands for something only
where `chain?` gives a chain. Where going up has no end, in a cycle of universal base types that are
left out, it is made up of the type and its interfaces, in place of an answer that never comes. -/
def chain (g : TypeGraph) (id : TypeId) (inherits includeRoot : Bool) : List TypeId :=
  if inherits then g.withInterfaces ((g.lineage? id includeRoot).getD [id]) else [id]

/-- The chain of a type, or nothing where going up has no end. -/
def chain? (g : TypeGraph) (id : TypeId) (inherits includeRoot : Bool) : Option (List TypeId) :=
  if inherits then (g.lineage? id includeRoot).map g.withInterfaces else some [id]

theorem chain_of_chain? {g : TypeGraph} {id : TypeId} {inherits includeRoot : Bool}
    {ids : List TypeId} (h : g.chain? id inherits includeRoot = some ids) :
    g.chain id inherits includeRoot = ids := by
  cases inherits with
  | false => exact Option.some.inj h
  | true =>
    obtain ⟨classes, hlineage, rfl⟩ := Option.map_eq_some_iff.1 h
    rw [chain, if_pos rfl, hlineage, Option.getD_some]

def decls (g : TypeGraph) (ids : List TypeId) : List TypeDecl := ids.filterMap g.type?

end MarkerIndex.Host.TypeGraph
