/-
The chain of a type is the closure of inheritance. When no type is among its own superclasses, the
chain starts with the type and its superclasses, nearest first, and behind these stand exactly the
types that interface links lead to from them. Interfaces may be shared and may extend each other in
circles: a class is in the chain before its interfaces are gone through, so being found does not
mean that they were, but in the end they are.
-/
import MarkerIndex.Proofs.Host.Gathering
import MarkerIndex.Proofs.Host.Lineage

namespace MarkerIndex.Host.TypeGraph

open Relation

variable {g : TypeGraph} {includeRoot : Bool} {ty id s t : TypeId} {seen found rest : List TypeId}

/-! ## Superclasses -/

/-- No type is among its own superclasses. -/
def BaseAcyclic (g : TypeGraph) : Prop := ∀ t, ¬ TransGen g.BaseLink t t

/-- All superclasses of a type, nearest first. -/
inductive Superclasses (g : TypeGraph) : TypeId → List TypeId → Prop
  | top {t : TypeId} : g.base? t = none → Superclasses g t []
  | base {t base : TypeId} {rest : List TypeId} : g.BaseLink t base → Superclasses g base rest →
      Superclasses g t (base :: rest)

/-- A path up to a type without base passes all superclasses. -/
theorem superclasses_of_path {before : List TypeId} (htop : g.base? id = none)
    (hpath : (before ++ [id]).IsChain g.BaseLink) (h : before ++ [id] = t :: rest) :
    g.Superclasses t rest := by
  induction before generalizing t rest with
  | nil =>
    obtain ⟨rfl, rfl⟩ := List.cons.inj h
    exact .top htop
  | cons u before ih =>
    obtain ⟨rfl, hrest⟩ := List.cons.inj h
    obtain ⟨base, above, habove⟩ := List.exists_cons_of_ne_nil (l := before ++ [id]) (by simp)
    rw [List.cons_append, habove] at hpath
    obtain ⟨hlink, htail⟩ := List.isChain_cons_cons.1 hpath
    obtain rfl : base :: above = rest := habove.symm.trans hrest
    exact .base hlink (ih (habove ▸ htail) habove)

/-- Without cycles the walk up ends at a type without base. -/
theorem BaseAcyclic.base?_eq_none (hac : g.BaseAcyclic) (h : g.Rises includeRoot ty seen id found)
    (hstops : g.Stops id found) : g.base? id = none := by
  by_contra hbase
  obtain ⟨base, hlink⟩ := Option.ne_none_iff_exists'.1 hbase
  exact hac base (.tail' (h.reaches (h.mem_seen (hstops base hlink))) hlink)

/-- Without cycles the lineage is the type and its superclasses, but for those that are left out. -/
theorem BaseAcyclic.lineage?_eq (hac : g.BaseAcyclic) (ty : TypeId) (includeRoot : Bool) :
    ∃ supers, g.Superclasses ty supers ∧ g.lineage? ty includeRoot =
      some (ty :: supers.filter fun t => !g.leavesOut includeRoot t) := by
  obtain ⟨seen, classes, hclimbs⟩ := exists_climbs_iff.2
    (not_losesWay_of_acyclic hac : ¬ g.LosesWay includeRoot ty)
  have hlineage := lineage?_eq_some_iff.2 ⟨seen, hclimbs⟩
  obtain ⟨id, hrises, hstops⟩ := hclimbs
  obtain ⟨before, hseen, hpath⟩ := hrises.path
  obtain ⟨supers, rfl, rfl⟩ := hrises.found_eq
  refine ⟨supers, superclasses_of_path ?_ hpath hseen.symm, hlineage⟩
  exact hac.base?_eq_none hrises hstops

/-! ## The closure -/

/-- Going up ends, and the chain holds no type twice; it is the type and those of its superclasses
that are not left out, nearest first, and then the other types that one or more interface links lead
to from these. Without inheritance it is the type alone. -/
theorem chain_eq_closure (hac : g.BaseAcyclic) (ty : TypeId) (includeRoot : Bool) :
    ∃ supers classes behind, g.Superclasses ty supers ∧
      classes = ty :: supers.filter (fun t => !g.leavesOut includeRoot t) ∧
      g.chain? ty true includeRoot = some (g.chain ty true includeRoot) ∧
      g.chain ty true includeRoot = classes ++ behind ∧ (g.chain ty true includeRoot).Nodup ∧
      (∀ t, t ∈ behind ↔ t ∉ classes ∧ ∃ s ∈ classes, TransGen g.InterfaceLink s t) ∧
      g.chain? ty false includeRoot = some [ty] ∧ g.chain ty false includeRoot = [ty] := by
  obtain ⟨supers, hsupers, hlineage⟩ := hac.lineage?_eq ty includeRoot
  obtain ⟨behind, hgathers⟩ := g.gathers_withInterfaces
    (ty :: supers.filter fun t => !g.leavesOut includeRoot t)
  have hchain := chain?_of_lineage? hlineage
  rw [hgathers.result_eq] at hchain
  exact ⟨supers, _, behind, hsupers, rfl,
    chain?_eq_some_chain fun _ => not_losesWay_of_acyclic hac, chain_of_chain? hchain,
    g.nodup_chain ty true includeRoot, fun t => hgathers.mem_visited_iff, rfl, rfl⟩

/-- A class with a base below the universal base type; two interfaces extend each other, and the
class lists one of them and, as an interface, its own base, whose interface is the other one. -/
def circularInterfaces : TypeGraph :=
  ⟨#[{ name := "Object", modifiers := { isRoot := true } },
    { name := "Named", modifiers := .interface, interfaces := [2] },
    { name := "Closeable", modifiers := .interface, interfaces := [1] },
    { name := "Base", base := some 0, interfaces := [2] },
    { name := "Service", base := some 3, interfaces := [1, 3] }]⟩

theorem baseAcyclic_of_lt (h : ∀ s t, g.BaseLink s t → t < s) : g.BaseAcyclic := by
  have hlt : ∀ s t, TransGen g.BaseLink s t → t < s := by
    intro s t hreach
    induction hreach with
    | single hlink => exact h _ _ hlink
    | tail _ hlink ih => exact Nat.lt_trans (h _ _ hlink) ih
  exact fun t hcycle => Nat.lt_irrefl t (hlt t t hcycle)

theorem baseAcyclic_circularInterfaces : circularInterfaces.BaseAcyclic := by
  refine baseAcyclic_of_lt fun s t hlink => ?_
  match s, hlink with
  | 3, hlink => cases hlink; decide
  | 4, hlink => cases hlink; decide

theorem chain_eq_closure_circularInterfaces : circularInterfaces.BaseAcyclic ∧
    ∃ supers classes behind, circularInterfaces.Superclasses 4 supers ∧
      classes = 4 :: supers.filter (fun t => !circularInterfaces.leavesOut false t) ∧
      circularInterfaces.chain? 4 true false = some (circularInterfaces.chain 4 true false) ∧
      circularInterfaces.chain 4 true false = classes ++ behind ∧
      (circularInterfaces.chain 4 true false).Nodup ∧
      (∀ t, t ∈ behind ↔ t ∉ classes ∧
        ∃ s ∈ classes, TransGen circularInterfaces.InterfaceLink s t) ∧
      circularInterfaces.chain? 4 false false = some [4] ∧
      circularInterfaces.chain 4 false false = [4] :=
  ⟨baseAcyclic_circularInterfaces, chain_eq_closure baseAcyclic_circularInterfaces 4 false⟩

example : circularInterfaces.chain 4 true false = [4, 3, 1, 2] := by decide

end MarkerIndex.Host.TypeGraph
