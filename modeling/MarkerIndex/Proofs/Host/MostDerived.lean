/-
Leaves and the order of chains. A leaf stands for its family from the front of the chain: no
candidate in front of it overrides it. So the leaves are the most derived methods of their families
whenever the chain lists every type behind its proper subtypes; and it takes no less, because two
methods that override each other are told apart by their places alone. A chain need not be in this
order: the interfaces of a class are listed in turn, each before what comes after it, and an
interface that is extended by a later one then stands in front of it.
-/
import MarkerIndex.Proofs.Host.ChainShape
import MarkerIndex.Proofs.Host.Leaves

namespace MarkerIndex.Host

namespace OverrideRule

variable {rule : OverrideRule}

theorem candidatesOf_append (front back : List TypeDecl) :
    candidatesOf (front ++ back) = candidatesOf front ++ candidatesOf back := List.flatMap_append

/-- No candidate in the front of a chain overrides a leaf from the back. -/
theorem not_overridden_from_front (ht : rule.hierarchy.Transitive) {front back : List TypeDecl}
    (h : Distinct (front ++ back)) {l m : Method} (hl : l ∈ rule.leaves (front ++ back))
    (hback : l ∈ candidatesOf back) (hm : m ∈ candidatesOf front) : ¬ rule.Overrides m l := by
  intro ho
  cases front with
  | nil => cases hm
  | cons first rest =>
    obtain ⟨u, v, hsplit⟩ := List.append_of_mem hback
    have hd : ((candidates first ++ ((candidatesOf rest ++ u) ++ l :: v)).map identity).Nodup := by
      have := h.candidates
      rwa [candidatesOf_append, hsplit, candidatesOf, List.flatMap_cons, List.append_assoc,
        ← List.append_assoc (rest.flatMap candidates)] at this
    change l ∈ (candidatesOf (rest ++ back)).foldl rule.meet (candidates first) at hl
    rw [candidatesOf_append, hsplit, ← List.append_assoc] at hl
    have hkept := not_overridden_when_met hd hl
    rw [← List.append_assoc, List.map_append] at hd
    obtain ⟨hmet, _, hdisjoint⟩ := List.nodup_append.1 hd
    have hfirst : ((candidates first).map identity).Nodup := by
      rw [List.map_append] at hmet
      exact (List.nodup_append.1 hmet).1
    -- The leaf that covers the method in front covers what the method overrides.
    have hleaves := (leavesOf_self rule hfirst).foldl ht hmet
    obtain ⟨k, hk, hc⟩ := hleaves.covered m (by
      rw [← List.append_assoc]; exact List.mem_append_left _ hm)
    rcases hc with rfl | hc
    · exact hkept k hk ho
    · refine hkept k hk (hc.trans ht ho ?_)
      exact hdisjoint _ (List.mem_map_of_mem (hleaves.among k hk)) _ (by simp)

/-! ## Types -/

/-- Every type of the list stands behind its proper subtypes. -/
def MostDerivedFirst (g : TypeGraph) (ids : List TypeId) : Prop :=
  ids.Pairwise fun t s => ¬ g.ProperSubtype s t

/-- A leaf that the type `t` declares is overridden by a candidate of the type `s`. -/
def LeafOverridden (rule : OverrideRule) (g : TypeGraph) (ids : List TypeId) (t s : TypeId) : Prop :=
  ∃ T S, g.type? t = some T ∧ g.type? s = some S ∧ ∃ l ∈ rule.leaves (g.decls ids), l ∈ T.methods ∧
    ∃ m ∈ candidates S, rule.Overrides m l

/-- No leaf is overridden by a candidate of a proper subtype of the type that declares the leaf. -/
def LeavesMostDerived (rule : OverrideRule) (g : TypeGraph) (ids : List TypeId) : Prop :=
  ∀ t ∈ ids, ∀ s ∈ ids, g.ProperSubtype s t → ¬ rule.LeafOverridden g ids t s

theorem mem_candidatesOf_decls {g : TypeGraph} {ids : List TypeId} {t : TypeId} {T : TypeDecl}
    {m : Method} (ht : t ∈ ids) (hT : g.type? t = some T) (hm : m ∈ candidates T) :
    m ∈ candidatesOf (g.decls ids) :=
  List.mem_flatMap.2 ⟨T, List.mem_filterMap.2 ⟨t, ht, hT⟩, hm⟩

/-- The leaves are most derived as soon as they are for the types that stand in front of one of
their proper subtypes. -/
theorem leavesMostDerived_iff_outOfOrder (ht : rule.hierarchy.Transitive) {g : TypeGraph}
    (hac : g.Acyclic) {ids : List TypeId} (h : Distinct (g.decls ids)) :
    rule.LeavesMostDerived g ids ↔
      ∀ t s, [t, s].Sublist ids → g.ProperSubtype s t → ¬ rule.LeafOverridden g ids t s := by
  constructor
  · intro hall t s hts hsub
    exact hall t (hts.subset (by simp)) s (hts.subset (by simp)) hsub
  · intro hout t htm s hsm hsub hover
    obtain ⟨u, v, rfl⟩ := List.append_of_mem htm
    rcases List.mem_append.1 hsm with hs | hs
    · -- A subtype in front of `t` declares nothing that overrides a leaf of `t`.
      obtain ⟨T, S, hT, hS, l, hl, hlT, m, hm, ho⟩ := hover
      have hcandidate : l ∈ candidates T :=
        List.mem_filter.2 ⟨hlT, (mem_candidatesOf.1 (mem_candidatesOf_of_leaf hl)).2⟩
      rw [TypeGraph.decls, List.filterMap_append] at h hl
      exact not_overridden_from_front ht h hl
        (mem_candidatesOf_decls (List.mem_cons_self ..) hT hcandidate)
        (mem_candidatesOf_decls hs hS hm) ho
    · rcases List.mem_cons.1 hs with rfl | hs
      · exact hac s hsub
      · refine hout t s ?_ hsub hover
        have : [t, s].Sublist (t :: v) := (List.singleton_sublist.2 hs).cons_cons t
        exact this.trans (List.sublist_append_right u _)

/-- In a chain with the most derived types first the leaves are most derived. -/
theorem leavesMostDerived_of_order (ht : rule.hierarchy.Transitive) {g : TypeGraph}
    (hac : g.Acyclic) {ids : List TypeId} (horder : MostDerivedFirst g ids)
    (h : Distinct (g.decls ids)) : rule.LeavesMostDerived g ids := by
  rw [leavesMostDerived_iff_outOfOrder ht hac h]
  exact fun t s hts hsub => (List.pairwise_iff_forall_sublist.1 horder hts hsub).elim

/-! ## The order is needed -/

/-- The graph with the same links in which only the types `t` and `s` declare anything: a method
each, which differ in nothing but their types. -/
def withGetters (g : TypeGraph) (t s : TypeId) : TypeGraph :=
  ⟨g.types.mapIdx fun i d => { d with methods :=
    if i = t then [getter "Super" "int" []] else if i = s then [getter "Sub" "int" []] else [] }⟩

section Getters

variable (g : TypeGraph) (t s : TypeId)

theorem type?_withGetters (id : TypeId) : (withGetters g t s).type? id = (g.type? id).map fun d =>
    { d with methods := if id = t then [getter "Super" "int" []]
      else if id = s then [getter "Sub" "int" []] else [] } := by
  rw [TypeGraph.type?, withGetters, Array.getElem?_mapIdx]; rfl

theorem sameLinks_withGetters : (withGetters g t s).SameLinks g := by
  constructor
  · simp [TypeGraph.size, withGetters]
  · funext id
    rw [TypeGraph.base?, type?_withGetters, TypeGraph.base?]
    cases g.type? id <;> rfl
  · funext id
    rw [TypeGraph.interfaces, type?_withGetters, TypeGraph.interfaces]
    cases g.type? id <;> rfl
  · funext id
    rw [TypeGraph.isRoot, type?_withGetters, TypeGraph.isRoot]
    cases g.type? id <;> rfl

theorem mem_methods_withGetters {id : TypeId} {d : TypeDecl} {m : Method}
    (hd : (withGetters g t s).type? id = some d) (hm : m ∈ d.methods) :
    id = t ∧ m = getter "Super" "int" [] ∨ id = s ∧ m = getter "Sub" "int" [] := by
  rw [type?_withGetters] at hd
  obtain ⟨d', _, rfl⟩ := Option.map_eq_some_iff.1 hd
  dsimp only at hm
  split at hm
  next h => exact .inl ⟨h, List.mem_singleton.1 hm⟩
  next =>
    split at hm
    next h => exact .inr ⟨h, List.mem_singleton.1 hm⟩
    next => cases hm

theorem mem_methodsOf_withGetters {ids : List TypeId} {m : Method}
    (hm : m ∈ methodsOf ((withGetters g t s).decls ids)) :
    t ∈ ids ∧ m = getter "Super" "int" [] ∨ s ∈ ids ∧ m = getter "Sub" "int" [] := by
  obtain ⟨d, hd, hm⟩ := List.mem_flatMap.1 hm
  obtain ⟨id, hid, hd⟩ := List.mem_filterMap.1 hd
  rcases mem_methods_withGetters g t s hd hm with ⟨rfl, e⟩ | ⟨rfl, e⟩
  · exact .inl ⟨hid, e⟩
  · exact .inr ⟨hid, e⟩

theorem distinct_withGetters {ids : List TypeId} (h : ids.Nodup) :
    Distinct ((withGetters g t s).decls ids) := by
  induction ids with
  | nil => exact List.nodup_nil
  | cons id ids ih =>
    obtain ⟨hid, hids⟩ := List.nodup_cons.1 h
    have ih := ih hids
    cases hd : (withGetters g t s).type? id with
    | none => rwa [TypeGraph.decls, List.filterMap_cons_none hd]
    | some d =>
      have hone : (d.methods.map identity).Nodup := by
        rw [type?_withGetters] at hd
        obtain ⟨d', _, rfl⟩ := Option.map_eq_some_iff.1 hd
        dsimp only
        split
        next => simp
        next => split <;> simp
      rw [TypeGraph.decls, List.filterMap_cons_some hd]
      unfold Distinct
      rw [methodsOf, List.flatMap_cons, List.map_append]
      refine List.nodup_append.2 ⟨hone, ih, ?_⟩
      intro a ha b hb hab
      obtain ⟨m, hm, rfl⟩ := List.mem_map.1 ha
      obtain ⟨n, hn, rfl⟩ := List.mem_map.1 hb
      rcases mem_methods_withGetters g t s hd hm with ⟨rfl, rfl⟩ | ⟨rfl, rfl⟩ <;>
        rcases mem_methodsOf_withGetters g _ _ hn with ⟨hmem, rfl⟩ | ⟨hmem, rfl⟩
      · exact hid hmem
      · revert hab; decide
      · revert hab; decide
      · exact hid hmem

theorem type?_of_lt {id : TypeId} (h : id < g.size) : ∃ d, (withGetters g t s).type? id = some d ∧
    d.methods = if id = t then [getter "Super" "int" []]
      else if id = s then [getter "Sub" "int" []] else [] := by
  rw [type?_withGetters, TypeGraph.type?, Array.getElem?_eq_getElem h]
  exact ⟨_, rfl, rfl⟩

/-- A leaf is missed when the type `t` stands in front of its proper subtype `s`. -/
theorem not_leavesMostDerived_withGetters {ids u v : List TypeId} (hids : ids = u ++ v)
    (hnodup : ids.Nodup) (htu : t ∈ u) (hsv : s ∈ v) (hsub : g.ProperSubtype s t)
    (hts : t < g.size) :
    ¬ LeavesMostDerived ⟨.exact, .covariant⟩ (withGetters g t s) ids := by
  subst hids
  intro hderived
  have hne : s ≠ t := fun e => (List.nodup_append.1 hnodup).2.2 t htu s hsv e.symm
  have hd := distinct_withGetters g t s hnodup
  have hsub' : (withGetters g t s).ProperSubtype s t := by
    rwa [(sameLinks_withGetters g t s).properSubtype]
  obtain ⟨T, hT, hTm⟩ := type?_of_lt g t s hts
  obtain ⟨S, hS, hSm⟩ := type?_of_lt g t s (TypeGraph.lt_size_of_properSubtype hsub)
  rw [if_pos rfl] at hTm
  rw [if_neg hne, if_pos rfl] at hSm
  have hsuper : getter "Super" "int" [] ∈ candidates T := by simp [candidates, hTm, getter]; decide
  have hsubm : getter "Sub" "int" [] ∈ candidates S := by simp [candidates, hSm, getter]; decide
  have hleaves : LeavesOf ⟨.exact, .covariant⟩ _ _ :=
    leavesOf_leaves Hierarchy.exact_transitive hd
  obtain ⟨k, hk, hc⟩ := hleaves.covered (getter "Super" "int" [])
    (mem_candidatesOf_decls (List.mem_append_left _ htu) hT hsuper)
  have hmethod : k ∈ methodsOf ((withGetters g t s).decls (u ++ v)) :=
    (mem_candidatesOf.1 (mem_candidatesOf_of_leaf hk)).1
  -- Whichever method covers that of `t`: its own is overridden, and that of `s` is not a leaf.
  rcases mem_methodsOf_withGetters g t s hmethod with ⟨_, rfl⟩ | ⟨_, rfl⟩
  · refine hderived t (List.mem_append_left _ htu) s (List.mem_append_right _ hsv) hsub'
      ⟨T, S, hT, hS, _, hk, by simp [hTm], _, hsubm, ?_⟩
    unfold Overrides; decide
  · rw [TypeGraph.decls, List.filterMap_append] at hk hd
    refine not_overridden_from_front Hierarchy.exact_transitive hd hk
      (mem_candidatesOf_decls hsv hS hsubm) (mem_candidatesOf_decls htu hT hsuper) ?_
    unfold Overrides; decide

end Getters

/-- When the leaves of a chain are most derived. For the declarations at hand, they are exactly
when no type in front of one of its proper subtypes declares a leaf that the subtype overrides; for
all declarations, exactly when the chain lists every type behind its proper subtypes. -/
theorem leaves_mostDerived_iff {g : TypeGraph} (hc : g.Closed) (hac : g.Acyclic) (ty : TypeId)
    (includeRoot : Bool) :
    (∀ rule : OverrideRule, rule.hierarchy.Transitive →
      Distinct (g.decls (g.chain ty true includeRoot)) →
        (rule.LeavesMostDerived g (g.chain ty true includeRoot) ↔
          ∀ t s, [t, s].Sublist (g.chain ty true includeRoot) → g.ProperSubtype s t →
            ¬ rule.LeafOverridden g (g.chain ty true includeRoot) t s)) ∧
    (MostDerivedFirst g (g.chain ty true includeRoot) ↔
      ∀ g' : TypeGraph, g'.SameLinks g → ∀ rule : OverrideRule, rule.hierarchy.Reflexive →
        rule.hierarchy.Transitive → Distinct (g'.decls (g'.chain ty true includeRoot)) →
          rule.LeavesMostDerived g' (g'.chain ty true includeRoot)) := by
  refine ⟨fun rule ht hd => leavesMostDerived_iff_outOfOrder ht hac hd, ?_⟩
  constructor
  · intro horder g' hlinks rule _ ht hd
    have hac' : g'.Acyclic := by
      intro t
      rw [hlinks.properSubtype]
      exact hac t
    refine leavesMostDerived_of_order ht hac' ?_ hd
    unfold MostDerivedFirst
    rwa [hlinks.properSubtype, hlinks.chain]
  · intro h
    -- A pair out of order is told apart by two declarations on the same links.
    have hnodup := g.nodup_chain ty true includeRoot
    refine List.pairwise_iff_forall_sublist.2 fun {t s} hts hsub => ?_
    obtain ⟨u, v, hids, htu, hsv⟩ := List.cons_sublist_iff.1 hts
    have hlinks := sameLinks_withGetters g t s
    refine not_leavesMostDerived_withGetters g t s hids hnodup htu
      (List.singleton_sublist.1 hsv) hsub (hc.lt_size hsub) ?_
    rw [← hlinks.chain]
    refine h _ hlinks _ Hierarchy.exact_reflexive Hierarchy.exact_transitive ?_
    rw [hlinks.chain]
    exact distinct_withGetters g t s hnodup

/-! ### An interface listed in front of one that extends it -/

/-- A class that lists an interface and then another one that extends the first; both interfaces
declare the same method. -/
def extendedInterfaces : TypeGraph :=
  ⟨#[{ name := "A", modifiers := .interface, methods := [getter "A" "int" []] },
    { name := "B", modifiers := .interface, interfaces := [0], methods := [getter "B" "int" []] },
    { name := "C", interfaces := [0, 1] }]⟩

theorem interfaces_extendedInterfaces (s : Nat) : extendedInterfaces.interfaces s =
    match s with
    | 1 => [0]
    | 2 => [0, 1]
    | _ => [] := by
  match s with
  | 0 | 1 | 2 | _ + 3 => rfl

theorem base?_extendedInterfaces (s : Nat) : extendedInterfaces.base? s = none := by
  match s with
  | 0 | 1 | 2 | _ + 3 => rfl

/-- Links lead from later types to earlier ones. -/
theorem link_extendedInterfaces {s t : Nat} (h : extendedInterfaces.Link s t) : t < s ∧ s < 3 := by
  unfold TypeGraph.Link at h
  rw [base?_extendedInterfaces, interfaces_extendedInterfaces] at h
  rcases h with h | h
  · cases h
  · match s with
    | 1 => rw [List.mem_singleton.1 h]; decide
    | 2 => rcases List.mem_pair.1 h with rfl | rfl <;> decide
    | 0 | _ + 3 => cases h

theorem properSubtype_extendedInterfaces {s t : Nat} (h : extendedInterfaces.ProperSubtype s t) :
    t < s := by
  induction h with
  | single hl => exact (link_extendedInterfaces hl).1
  | tail _ hl ih => exact Nat.lt_trans (link_extendedInterfaces hl).1 ih

theorem closed_extendedInterfaces : extendedInterfaces.Closed := fun _ _ h =>
  Nat.lt_trans (link_extendedInterfaces h).1 (link_extendedInterfaces h).2

theorem acyclic_extendedInterfaces : extendedInterfaces.Acyclic := fun _ h =>
  Nat.lt_irrefl _ (properSubtype_extendedInterfaces h)

theorem leaves_mostDerived_subinterface : extendedInterfaces.Closed ∧ extendedInterfaces.Acyclic ∧
    ∀ g' : TypeGraph, g'.SameLinks extendedInterfaces → ∀ rule : OverrideRule,
      rule.hierarchy.Reflexive → rule.hierarchy.Transitive →
        Distinct (g'.decls (g'.chain 1 true false)) →
          rule.LeavesMostDerived g' (g'.chain 1 true false) := by
  refine ⟨closed_extendedInterfaces, acyclic_extendedInterfaces, ?_⟩
  refine (leaves_mostDerived_iff closed_extendedInterfaces acyclic_extendedInterfaces 1 false).2.1 ?_
  have hchain : extendedInterfaces.chain 1 true false = [1, 0] := by decide
  rw [hchain]
  refine .cons (fun s hs hsub => ?_) (.cons (fun _ h => by cases h) .nil)
  rw [List.mem_singleton.1 hs] at hsub
  exact absurd (properSubtype_extendedInterfaces hsub) (by decide)

/-- The leaf of the class is the method of the interface that is listed first, and the other
interface extends that one and overrides the leaf. -/
theorem not_leavesMostDerived_extendedInterfaces :
    ¬ ∀ g : TypeGraph, g.Closed → g.Acyclic → ∀ (ty : TypeId) (includeRoot : Bool)
      (rule : OverrideRule), rule.hierarchy.Reflexive → rule.hierarchy.Transitive →
        rule.LeavesMostDerived g (g.chain ty true includeRoot) := by
  intro h
  have hderived := h extendedInterfaces closed_extendedInterfaces acyclic_extendedInterfaces 2 false
    ⟨.exact, .covariant⟩ Hierarchy.exact_reflexive Hierarchy.exact_transitive
  have hchain : extendedInterfaces.chain 2 true false = [2, 0, 1] := by decide
  rw [hchain] at hderived
  have hleaves : (⟨.exact, .covariant⟩ : OverrideRule).leaves (extendedInterfaces.decls [2, 0, 1]) =
      [getter "A" "int" []] := rfl
  refine hderived 0 (by decide) 1 (by decide) (.single (.inr (by decide)))
    ⟨_, _, rfl, rfl, getter "A" "int" [], ?_, List.mem_singleton_self _, getter "B" "int" [], ?_, ?_⟩
  · rw [hleaves]; exact List.mem_singleton_self _
  · exact List.mem_filter.2 ⟨List.mem_singleton_self _, by decide⟩
  · unfold Overrides; decide

end OverrideRule

end MarkerIndex.Host
