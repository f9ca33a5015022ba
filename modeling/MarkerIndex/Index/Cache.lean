/-
A cache of indices, by name and options.

An index that is stored gets a serial number, so that two answers can be told to be one stored
index. What is stored under a key stays until the key is removed: a later request for it is
answered with the stored index, whatever it would build.
-/
import MarkerIndex.Index.Basic

namespace MarkerIndex

open Host

/-- What an index is stored under. -/
abbrev CacheKey := String × Options

/-- An index with the serial number that it got when it was stored. -/
structure Stored where
  serial : Nat
  index : Index

/-- Stored indices. -/
structure Cache where
  entries : Entries CacheKey Stored := []
  nextSerial : Nat := 0

namespace Cache

/-- The index stored under a key. -/
def get? (c : Cache) (name : String) (o : Options) : Option Stored := c.entries.get? (name, o)

def size (c : Cache) : Nat := c.entries.length

/-- The cache with one more index, under a key that has none. -/
def store (c : Cache) (key : CacheKey) (x : Index) : Stored × Cache :=
  let s : Stored := ⟨c.nextSerial, x⟩
  (s, ⟨c.entries ++ [(key, s)], c.nextSerial + 1⟩)

/-- The index of a type, built unless one is stored under its name and the options. To be built it
takes a chain (`TypeGraph.chain?`). -/
def getOrBuild (c : Cache) (g : TypeGraph) (id : TypeId) (h : Hierarchy) (o : Options) :
    Stored × Cache :=
  match c.get? (g.name id) o with
  | some s => (s, c)
  | none => c.store (g.name id, o) (.ofType g id h o)

/-- The index of a class descriptor, read unless one is stored under the name and the options. -/
def getOrDecode (c : Cache) (name : String) (data : Bytes) (target : Option String) (o : Options) :
    Except Fault (Stored × Cache) :=
  match c.get? name o with
  | some s => .ok (s, c)
  | none =>
    match Index.ofClass data target o with
    | .ok x => .ok (c.store (name, o) x)
    | .error f => .error f

/-- The cache with the indices of all types that are not stored. Each of them has a chain, or there
is no end to it. -/
def prefetch (c : Cache) (g : TypeGraph) (ids : List TypeId) (h : Hierarchy) (o : Options) :
    Cache :=
  ids.foldl (fun c id => (c.getOrBuild g id h o).2) c

/-- The cache without the indices of a name, whatever the options. -/
def invalidate (c : Cache) (name : String) : Cache :=
  { c with entries := c.entries.filter fun e => e.1.1 ≠ name }

def clear (c : Cache) : Cache := { c with entries := [] }

end Cache

end MarkerIndex
