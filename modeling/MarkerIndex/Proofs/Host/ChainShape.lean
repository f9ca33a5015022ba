/-
The shape of chains. A chain lists no type twice, and it depends on the links of the graph alone:
graphs with the same bases, interfaces and universal base types have the same chains, whatever
their types declare.
-/
import MarkerIndex.Host.Chain
import Mathlib.Data.List.Nodup
import Mathlib.Logic.Relation

namespace MarkerIndex.Host.TypeGraph

/-! ## Links -/

/-- A link from a type to its base or to one of its interfaces. -/
def Link (g : TypeGraph) (s t : TypeId) : Prop := g.base? s = some t ∨ t ∈ g.interfaces s

/-- One or more links lead from the first type to the second. -/
def ProperSubtype (g : TypeGraph) : TypeId → TypeId → Prop := Relation.TransGen g.Link

/-- No type is a proper subtype of itself. -/
def Acyclic (g : TypeGraph) : Prop := ∀ t, ¬ g.ProperSubtype t t

/-- Links lead to types of the graph. -/
def Closed (g : TypeGraph) : Prop := ∀ s t, g.Link s t → t < g.size

/-- The graphs have as many types, with the same links between them. -/
structure SameLinks (g g' : TypeGraph) : Prop where
  size : g.size = g'.size
  base : g.base? = g'.base?
  interfaces : g.interfaces = g'.interfaces
  isRoot : g.isRoot = g'.isRoot

theorem SameLinks.link {g g' : TypeGraph} (h : g.SameLinks g') : g.Link = g'.Link := by
  funext s t
  unfold Link
  rw [h.base, h.interfaces]

theorem SameLinks.properSubtype {g g' : TypeGraph} (h : g.SameLinks g') :
    g.ProperSubtype = g'.ProperSubtype := by
  unfold ProperSubtype
  rw [h.link]

/-- Only types of the graph have links. -/
theorem lt_size_of_link {g : TypeGraph} {s t : TypeId} (h : g.Link s t) : s < g.size := by
  by_contra hs
  have hnone : g.type? s = none := Array.getElem?_eq_none (Nat.not_lt.1 hs)
  rcases h with h | h
  · simp [base?, hnone] at h
  · simp [interfaces, hnone] at h

theorem lt_size_of_properSubtype {g : TypeGraph} {s t : TypeId} (h : g.ProperSubtype s t) :
    s < g.size := by
  obtain ⟨_, hlink, _⟩ := Relation.TransGen.head'_iff.1 h
  exact lt_size_of_link hlink

theorem Closed.lt_size {g : TypeGraph} (hc : g.Closed) {s t : TypeId} (h : g.ProperSubtype s t) :
    t < g.size := by
  obtain ⟨u, _, hlink⟩ := Relation.TransGen.tail'_iff.1 h
  exact hc u t hlink

/-! ## Chains depend on links alone -/

theorem SameLinks.climb {g g' : TypeGraph} (h : g.SameLinks g') (includeRoot : Bool) (steps : Nat)
    (next : Option TypeId) (found : List TypeId) :
    g.climb includeRoot steps next found = g'.climb includeRoot steps next found := by
  induction steps generalizing next found with
  | zero => cases next <;> rfl
  | succ steps ih =>
    cases next with
    | none => rfl
    | some id => rw [TypeGraph.climb, TypeGraph.climb, h.base, h.isRoot, ih]

theorem SameLinks.gather {g g' : TypeGraph} (h : g.SameLinks g') (depth : Nat) (id : TypeId)
    (found : List TypeId) : g.gather depth id found = g'.gather depth id found := by
  induction depth generalizing id found with
  | zero => rfl
  | succ depth ih =>
    rw [TypeGraph.gather, TypeGraph.gather, h.interfaces]
    simp only [ih]

theorem SameLinks.chain {g g' : TypeGraph} (h : g.SameLinks g') (id : TypeId)
    (inherits includeRoot : Bool) :
    g.chain id inherits includeRoot = g'.chain id inherits includeRoot := by
  unfold TypeGraph.chain lineage? withInterfaces climbSteps
  rw [h.size, h.base, h.climb]
  simp only [h.gather]

/-! ## No type is listed twice -/

theorem nodup_append_new {found : List TypeId} {id : TypeId} (h : found.Nodup)
    (hnew : found.contains id = false) : (found ++ [id]).Nodup := by
  refine List.nodup_append.2 ⟨h, by simp, fun a ha b hb hab => ?_⟩
  rw [List.mem_singleton] at hb
  subst hab hb
  simp [ha] at hnew

theorem nodup_climb {g : TypeGraph} {includeRoot : Bool} {steps : Nat} {next : Option TypeId}
    {found ids : List TypeId} (hf : found.Nodup)
    (h : g.climb includeRoot steps next found = some ids) : ids.Nodup := by
  induction steps generalizing next found with
  | zero =>
    cases next with
    | none => cases h; exact hf
    | some id => cases h
  | succ steps ih =>
    cases next with
    | none => cases h; exact hf
    | some id =>
      rw [climb] at h
      split at h
      next => cases h; exact hf
      next hnew =>
        refine ih ?_ h
        split
        next => exact hf
        next => exact nodup_append_new hf (by simpa using hnew)

theorem nodup_gather {g : TypeGraph} (depth : Nat) (id : TypeId) {found : List TypeId}
    (hf : found.Nodup) : (g.gather depth id found).Nodup := by
  induction depth generalizing id found with
  | zero => exact hf
  | succ depth ih =>
    rw [gather]
    -- The inner induction is on the interfaces, with the types found so far general.
    generalize g.interfaces id = is
    induction is generalizing found with
    | nil => exact hf
    | cons i is ihs =>
      rw [List.foldl_cons]
      refine ihs ?_
      split
      next => exact hf
      next hnew => exact ih i (nodup_append_new hf (by simpa using hnew))

theorem nodup_withInterfaces (g : TypeGraph) {classes : List TypeId} (h : classes.Nodup) :
    (g.withInterfaces classes).Nodup := by
  unfold withInterfaces
  suffices hall : ∀ found : List TypeId, found.Nodup →
      (classes.foldl (fun found id => g.gather (g.size + 1) id found) found).Nodup from
    hall classes h
  induction classes with
  | nil => exact fun found hf => hf
  | cons id classes ih =>
    exact fun found hf => ih (List.nodup_cons.1 h).2 _ (nodup_gather _ id hf)

theorem nodup_chain (g : TypeGraph) (id : TypeId) (inherits includeRoot : Bool) :
    (g.chain id inherits includeRoot).Nodup := by
  unfold chain
  split
  · refine nodup_withInterfaces g ?_
    cases hl : g.lineage? id includeRoot with
    | none => simp
    | some ids => exact nodup_climb (by simp) hl
  · simp

end MarkerIndex.Host.TypeGraph
