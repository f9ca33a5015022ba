/-
Assignability by registered types is a preorder, as covariant return types take for granted. Every
question is answered from the chain of one type alone, so this takes two things of the registry:
what the links of a registered type lead to is registered under its name, and interfaces have no
bases, because a chain goes up from classes only. Then the chain of a type holds the chains of all
types in it, also where links form circles.
-/
import MarkerIndex.Host.Registry
import MarkerIndex.Proofs.Host.Gathering
import MarkerIndex.Proofs.Host.Leaves
import MarkerIndex.Proofs.Host.Lineage

namespace MarkerIndex.Host

open Relation

namespace TypeGraph

variable {g : TypeGraph} {ty s t : TypeId}

/-! ## Chains with all superclasses -/

/-- The walk that leaves nothing out finds exactly the types that base links lead to. -/
theorem Climbs.mem_classes_iff {examined classes : List TypeId}
    (h : g.Climbs true ty examined classes) : t ∈ classes ↔ ReflTransGen g.BaseLink ty t := by
  obtain ⟨id, hrises, hstops⟩ := h
  have hmem : ∀ t, t ∈ classes ↔ t ∈ examined := by
    refine fun t => ⟨hrises.mem_seen, fun ht => hrises.mem_found_iff.2 (.inr ⟨ht, ?_⟩)⟩
    simp [leavesOut]
  rw [hmem]
  constructor
  · exact hrises.reached t
  · intro hreach
    induction hreach with
    | refl => exact hrises.start_mem
    | @tail s t _ hlink ih =>
      obtain ⟨before, rfl, hpath⟩ := hrises.path
      rcases List.mem_append.1 ih with hs | hs
      · obtain ⟨u, hu, hnext⟩ := exists_next hpath hs
        rwa [hlink.eq hnext]
      · -- Where the walk stops, the base was found.
        rw [List.mem_singleton.1 hs] at hlink
        exact (hmem t).1 (hstops t hlink)

/-- The chain with all superclasses holds the types that base links lead to, and those that
interface links lead to from there. -/
theorem mem_chain_iff : t ∈ g.chain ty true true ↔ ReflTransGen g.BaseLink ty t ∨
    ∃ s, ReflTransGen g.BaseLink ty s ∧ TransGen g.InterfaceLink s t := by
  have hno : ¬ g.LosesWay true ty := not_losesWay_true
  obtain ⟨examined, classes, hclimbs⟩ := exists_climbs_iff.2 hno
  obtain ⟨visited, hgathers⟩ := g.gathers_withInterfaces classes
  have hchain := chain_of_chain? (chain?_of_lineage? (lineage?_eq_some_iff.2 ⟨examined, hclimbs⟩))
  rw [hchain, hgathers.result_eq, List.mem_append, hgathers.mem_visited_iff]
  simp only [hclimbs.mem_classes_iff]
  tauto

theorem links_of_baseLinks (h : ReflTransGen g.BaseLink s t) : ReflTransGen g.Link s t :=
  ReflTransGen.mono (fun _ _ hlink => BaseLink.link hlink) _ _ h

theorem links_of_interfaceLinks (h : ReflTransGen g.InterfaceLink s t) :
    ReflTransGen g.Link s t :=
  ReflTransGen.mono (fun _ _ hlink => Or.inr hlink) _ _ h

theorem reached_of_mem_chain (h : t ∈ g.chain ty true true) : ReflTransGen g.Link ty t := by
  rcases mem_chain_iff.1 h with h | ⟨s, hs, ht⟩
  · exact links_of_baseLinks h
  · exact (links_of_baseLinks hs).trans (links_of_interfaceLinks ht.to_reflTransGen)

/-- When the interfaces above a type have no bases, its chain holds the chains of all its types. -/
theorem mem_chain_trans
    (hbaseless : ∀ s t, ReflTransGen g.Link ty s → g.InterfaceLink s t → g.base? t = none)
    (hs : s ∈ g.chain ty true true) (ht : t ∈ g.chain s true true) : t ∈ g.chain ty true true := by
  rw [mem_chain_iff] at ht ⊢
  rcases mem_chain_iff.1 hs with hclass | ⟨p, hp, hinterface⟩
  · rcases ht with ht | ⟨q, hq, ht⟩
    · exact .inl (hclass.trans ht)
    · exact .inr ⟨q, hclass.trans hq, ht⟩
  · -- The type is an interface, so going up from it ends at once.
    have hnone : g.base? s = none := by
      obtain ⟨q, hpq, hlink⟩ := TransGen.tail'_iff.1 hinterface
      exact hbaseless q s ((links_of_baseLinks hp).trans (links_of_interfaceLinks hpq)) hlink
    have hself : ∀ {q}, ReflTransGen g.BaseLink s q → q = s := by
      intro q hq
      rcases hq.cases_head with rfl | ⟨base, hlink, -⟩
      · rfl
      · cases hnone.symm.trans hlink
    rcases ht with ht | ⟨q, hq, ht⟩
    · rw [hself ht]
      exact .inr ⟨p, hp, hinterface⟩
    · rw [hself hq] at ht
      exact .inr ⟨p, hp, hinterface.trans ht⟩

end TypeGraph

/-! ## Registries -/

namespace Registry

variable {g : TypeGraph} {r : Registry}

/-- The links of a registered type lead to registered types only, and to interfaces without
bases. -/
structure Complete (g : TypeGraph) (r : Registry) : Prop where
  /-- Every type that links lead to is the one registered under its name. -/
  registered : ∀ {name id t}, r.get? name = some id → ReflTransGen g.Link id t →
    r.get? (g.name t) = some t
  /-- No type listed as an interface has a base. -/
  baseless : ∀ {name id s t}, r.get? name = some id → ReflTransGen g.Link id s →
    g.InterfaceLink s t → g.base? t = none

theorem hierarchy_iff {target source : String} : r.hierarchy g target source = true ↔
    target = source ∨ ∃ id, r.get? source = some id ∧
      ∃ t ∈ g.chain id true true, g.name t = target := by
  unfold hierarchy
  cases hget : r.get? source <;> simp

/-- Assignability by a complete registry is a preorder on all names, registered or not. -/
theorem hierarchy_preorder (h : r.Complete g) :
    (r.hierarchy g).Reflexive ∧ (r.hierarchy g).Transitive := by
  refine ⟨fun a => hierarchy_iff.2 (.inl rfl), fun a b c hab hbc => ?_⟩
  rcases hierarchy_iff.1 hbc with rfl | ⟨ty, hty, s, hs, rfl⟩
  · exact hab
  · rcases hierarchy_iff.1 hab with rfl | ⟨id, hid, t, ht, rfl⟩
    · exact hbc
    · -- The name in the middle stands for the type that the chain holds.
      have hmiddle := h.registered hty (TypeGraph.reached_of_mem_chain hs)
      obtain rfl : s = id := Option.some.inj (hmiddle.symm.trans hid)
      exact hierarchy_iff.2 (.inr ⟨ty, hty, t,
        TypeGraph.mem_chain_trans (fun _ _ => h.baseless hty) hs ht, rfl⟩)

/-- A class below another one and the universal base type, two interfaces that extend each other,
and a class that is its own base. -/
def circularTypes : TypeGraph :=
  ⟨#[{ name := "Object", modifiers := { isRoot := true } },
    { name := "Named", modifiers := .interface, interfaces := [2] },
    { name := "Closeable", modifiers := .interface, interfaces := [1] },
    { name := "Base", base := some 0, interfaces := [2] },
    { name := "Service", base := some 3, interfaces := [1] },
    { name := "Loop", base := some 5, interfaces := [1] }]⟩

/-- All types of that graph under their names. -/
def allTypes : Registry :=
  ⟨[("Object", 0), ("Named", 1), ("Closeable", 2), ("Base", 3), ("Service", 4), ("Loop", 5)]⟩

theorem complete_allTypes : allTypes.Complete circularTypes := by
  have hlink : ∀ s t, circularTypes.Link s t → t < 6 := by
    intro s t hlink
    match s, hlink with
    | 3, .inl hbase | 4, .inl hbase | 5, .inl hbase => cases hbase; decide
    | 1, .inr hmem | 2, .inr hmem | 3, .inr hmem | 4, .inr hmem | 5, .inr hmem =>
      rw [List.mem_singleton.1 hmem]; decide
  have hlt : ∀ {name id t}, allTypes.get? name = some id → ReflTransGen circularTypes.Link id t →
      t < 6 := by
    intro name id t hget hreach
    rcases hreach.cases_tail with rfl | ⟨u, -, hstep⟩
    · have hall : ∀ e ∈ allTypes.types, e.2 < 6 := by decide
      exact hall _ (Entries.mem_of_get? hget)
    · exact hlink u t hstep
  constructor
  · intro name id t hget hreach
    have : ∀ t < 6, allTypes.get? (circularTypes.name t) = some t := by decide
    exact this t (hlt hget hreach)
  · intro name id s t hget hreach hstep
    have : ∀ s < 6, ∀ t ∈ circularTypes.interfaces s, circularTypes.base? t = none := by decide
    exact this s (hlt hget hreach) t hstep

/-- `Service` is below `Base` and `Base` below `Object`, and so `Service` is below `Object`; it is
not the other way round. -/
theorem hierarchy_preorder_allTypes : allTypes.Complete circularTypes ∧
    (allTypes.hierarchy circularTypes).Reflexive ∧
    (allTypes.hierarchy circularTypes).Transitive ∧
    allTypes.hierarchy circularTypes "Object" "Base" = true ∧
    allTypes.hierarchy circularTypes "Base" "Service" = true ∧
    allTypes.hierarchy circularTypes "Object" "Service" = true ∧
    allTypes.hierarchy circularTypes "Service" "Object" = false := by
  have hbase : allTypes.hierarchy circularTypes "Object" "Base" = true := by decide
  have hservice : allTypes.hierarchy circularTypes "Base" "Service" = true := by decide
  obtain ⟨hreflexive, htransitive⟩ := hierarchy_preorder complete_allTypes
  exact ⟨complete_allTypes, hreflexive, htransitive, hbase, hservice,
    htransitive "Object" "Base" "Service" hbase hservice, by decide⟩

end Registry

end MarkerIndex.Host
