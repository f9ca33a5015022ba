/-
What it takes to come by a chain. The interfaces are gathered without going into any type twice, so
gathering ends on every graph, whatever circles its links form. Going up is not bounded by what was
found, because universal base types are passed without being found: the walk examines no type three
times unless it loses its way, and then it does not end. So the bound of one base link more than
there are types holds exactly when the types that are passed again are few enough.
-/
import MarkerIndex.Proofs.Host.Gathering
import MarkerIndex.Proofs.Host.Lineage

namespace MarkerIndex.Host.TypeGraph

open Relation

variable {g : TypeGraph} {includeRoot : Bool} {ty id id' : TypeId}
  {seen seen' found found' : List TypeId}

/-! ## The walk is determined -/

theorem Rises.length_pos (h : g.Rises includeRoot ty seen id found) : 0 < seen.length :=
  List.length_pos_of_mem h.start_mem

/-- After as many links the walk is the same. -/
theorem Rises.determined (h : g.Rises includeRoot ty seen id found)
    (h' : g.Rises includeRoot ty seen' id' found') (hlength : seen.length = seen'.length) :
    seen = seen' ∧ id = id' ∧ found = found' := by
  induction h generalizing seen' id' found' with
  | start =>
    cases h' with
    | start => exact ⟨rfl, rfl, rfl⟩
    | step h' _ _ =>
      have := h'.length_pos
      simp only [List.length_append, List.length_singleton] at hlength
      omega
  | step h hlink _ ih =>
    cases h' with
    | start =>
      have := h.length_pos
      simp only [List.length_append, List.length_singleton] at hlength
      omega
    | step h' hlink' _ =>
      simp only [List.length_append, List.length_singleton, Nat.add_right_cancel_iff] at hlength
      obtain ⟨rfl, rfl, rfl⟩ := ih h' hlength
      obtain rfl := hlink.eq hlink'
      exact ⟨rfl, rfl, rfl⟩

/-- Before its last link the walk did not stop. -/
theorem Rises.not_stops_before (h : g.Rises includeRoot ty seen id found) {n : Nat} (hpos : 0 < n)
    (hn : n < seen.length) : ∃ seen' id' found', g.Rises includeRoot ty seen' id' found' ∧
      seen'.length = n ∧ ¬ g.Stops id' found' := by
  induction h with
  | start =>
    rw [List.length_singleton] at hn
    omega
  | @step seen found id base h hlink hnew ih =>
    by_cases hshort : n < seen.length
    · exact ih hshort
    · refine ⟨seen, id, found, h, ?_, fun hstops => hnew (hstops base hlink)⟩
      simp only [List.length_append, List.length_singleton] at hn
      omega

/-- The walk ends in one way only. -/
theorem Climbs.unique {examined examined' classes classes' : List TypeId}
    (h : g.Climbs includeRoot ty examined classes)
    (h' : g.Climbs includeRoot ty examined' classes') :
    examined = examined' ∧ classes = classes' := by
  have hle : ∀ {e e' c c' : List TypeId}, g.Climbs includeRoot ty e c →
      g.Climbs includeRoot ty e' c' → ¬ e.length < e'.length := by
    rintro e e' c c' ⟨id, hrises, hstops⟩ ⟨_, hrises', -⟩ hlt
    obtain ⟨_, _, _, hshort, hlength, hgoes⟩ := hrises'.not_stops_before hrises.length_pos hlt
    obtain ⟨-, rfl, rfl⟩ := hshort.determined hrises hlength
    exact hgoes hstops
  have hlength := Nat.le_antisymm (Nat.not_lt.1 (hle h' h)) (Nat.not_lt.1 (hle h h'))
  obtain ⟨_, hrises, -⟩ := h
  obtain ⟨_, hrises', -⟩ := h'
  obtain ⟨hexamined, -, hclasses⟩ := hrises.determined hrises' hlength
  exact ⟨hexamined, hclasses⟩

/-! ## How many base links are examined -/

/-- The walk sees types of the graph only. -/
theorem Rises.card_le (h : g.Rises includeRoot ty seen id found) (hc : g.Closed)
    (hty : ty < g.size) : seen.toFinset.card ≤ g.size := by
  have hsub : seen.toFinset ⊆ Finset.range g.size := by
    intro t ht
    rw [Finset.mem_range]
    rcases (h.reached t (List.mem_toFinset.1 ht)).cases_tail with rfl | ⟨u, -, hlink⟩
    · exact hty
    · exact hc u t hlink.link
  simpa using Finset.card_le_card hsub

/-- The walk that ends examines a base link for each type it sees, and another one for each type it
passes again; the latter are universal base types that are left out. -/
theorem Climbs.length_eq {examined classes : List TypeId}
    (h : g.Climbs includeRoot ty examined classes) :
    examined.length = examined.toFinset.card + (repeated examined).card ∧
      ∀ t ∈ repeated examined, g.leavesOut includeRoot t = true ∧ t ≠ ty := by
  have hno := exists_climbs_iff.1 ⟨examined, classes, h⟩
  obtain ⟨id, hrises, -⟩ := h
  refine ⟨length_eq_card_add (hrises.count_le_two hno), fun t ht => ?_⟩
  exact hrises.leavesOut_of_count (Finset.mem_filter.1 ht).2

/-! ## What gathering takes -/

/-- Behind any classes gathering goes into each type of the graph at most once. -/
theorem gathers_once (hc : g.Closed) (classes : List TypeId) :
    ∃ visited, g.Gathers (classes.flatMap g.interfaces) classes visited
      (g.withInterfaces classes) ∧ visited.Nodup ∧ ∀ t ∈ visited, t < g.size := by
  obtain ⟨visited, h⟩ := g.gathers_withInterfaces classes
  refine ⟨visited, h, h.nodup_visited, fun t ht => ?_⟩
  obtain ⟨-, s, -, hreach⟩ := h.mem_visited_iff.1 ht
  obtain ⟨u, -, hlink⟩ := TransGen.tail'_iff.1 hreach
  exact hc u t (.inr hlink)

/-! ## The bounds -/

/-- The chain of a type comes about, and within bounds: the walk up ends and examines at most one
base link more than there are types, and gathering goes into each type at most once. Without
inheritance there is neither. -/
def Bounded (g : TypeGraph) (ty : TypeId) (inherits includeRoot : Bool) : Prop :=
  ∃ chain, g.chain? ty inherits includeRoot = some chain ∧ (inherits = true →
    ∃ examined classes visited, g.Climbs includeRoot ty examined classes ∧
      examined.length ≤ g.size + 1 ∧
      g.Gathers (classes.flatMap g.interfaces) classes visited chain ∧
      visited.Nodup ∧ ∀ t ∈ visited, t < g.size)

/-- The bounds hold exactly when the walk up does not lose its way and passes at most one type more
for a second time than there are types it does not see. A walk that loses its way has no end, and
then there is no chain; one that ends examines at most two base links for each type, and two only
for universal base types that are left out. Gathering is always within its bounds. -/
theorem bounded_iff (hc : g.Closed) (hty : ty < g.size) (inherits includeRoot : Bool) :
    (g.Bounded ty inherits includeRoot ↔ (inherits = true → ¬ g.LosesWay includeRoot ty ∧
      ∀ examined classes, g.Climbs includeRoot ty examined classes →
        (repeated examined).card ≤ g.size - examined.toFinset.card + 1)) ∧
    (g.LosesWay includeRoot ty ↔ ¬ ∃ examined classes, g.Climbs includeRoot ty examined classes) ∧
    (g.chain? ty inherits includeRoot = none ↔ inherits = true ∧ g.LosesWay includeRoot ty) ∧
    (∀ examined classes, g.Climbs includeRoot ty examined classes →
      examined.length ≤ 2 * g.size ∧
        ∀ t ∈ repeated examined, g.isRoot t = true ∧ includeRoot = false ∧ t ≠ ty) ∧
    (∀ classes, ∃ visited, g.Gathers (classes.flatMap g.interfaces) classes visited
      (g.withInterfaces classes) ∧ visited.Nodup ∧ ∀ t ∈ visited, t < g.size) := by
  have hcard : ∀ {examined classes}, g.Climbs includeRoot ty examined classes →
      examined.toFinset.card ≤ g.size := fun ⟨_, hrises, _⟩ => hrises.card_le hc hty
  refine ⟨⟨fun h hinherits => ?_, fun h => ?_⟩, by rw [exists_climbs_iff, not_not],
    chain?_eq_none_iff, ?_, gathers_once hc⟩
  · obtain ⟨_, -, h⟩ := h
    obtain ⟨examined, classes, _, hclimbs, hlength, -⟩ := h hinherits
    refine ⟨exists_climbs_iff.1 ⟨examined, classes, hclimbs⟩, fun examined' classes' hclimbs' => ?_⟩
    obtain ⟨rfl, rfl⟩ := hclimbs.unique hclimbs'
    have := hclimbs.length_eq.1
    have := hcard hclimbs
    omega
  · cases inherits with
    | false => exact ⟨[ty], rfl, fun hinherits => by cases hinherits⟩
    | true =>
      obtain ⟨hno, hfew⟩ := h rfl
      obtain ⟨examined, classes, hclimbs⟩ := exists_climbs_iff.2 hno
      obtain ⟨visited, hgathers, hvisited⟩ := gathers_once hc classes
      refine ⟨_, chain?_of_lineage? (lineage?_eq_some_iff.2 ⟨examined, hclimbs⟩), fun _ =>
        ⟨examined, classes, visited, hclimbs, ?_, hgathers, hvisited⟩⟩
      have := hfew examined classes hclimbs
      have := hclimbs.length_eq.1
      have := hcard hclimbs
      omega
  · intro examined classes hclimbs
    obtain ⟨hlength, hrepeated⟩ := hclimbs.length_eq
    constructor
    · have := hcard hclimbs
      have : (repeated examined).card ≤ examined.toFinset.card :=
        Finset.card_le_card (Finset.filter_subset _ _)
      omega
    · intro t ht
      obtain ⟨hout, hne⟩ := hrepeated t ht
      rw [leavesOut, Bool.and_eq_true, Bool.not_eq_true'] at hout
      exact ⟨hout.1, hout.2, hne⟩

/-! ### Universal base types in a circle -/

/-- A type below two universal base types that form a circle with an ordinary one. -/
def circularRoots : TypeGraph :=
  ⟨#[{ name := "Service", base := some 1 },
    { name := "Object", modifiers := { isRoot := true }, base := some 2 },
    { name := "Any", modifiers := { isRoot := true }, base := some 3 },
    { name := "Base", base := some 1 }]⟩

theorem closed_circularRoots : circularRoots.Closed := by
  intro s t hlink
  match s, hlink with
  | 0, .inl hbase => cases hbase; decide
  | 1, .inl hbase => cases hbase; decide
  | 2, .inl hbase => cases hbase; decide
  | 3, .inl hbase => cases hbase; decide

theorem bounded_iff_circularRoots : circularRoots.Closed ∧ 0 < circularRoots.size ∧
    (circularRoots.Bounded 0 true false ↔ (true = true → ¬ circularRoots.LosesWay false 0 ∧
      ∀ examined classes, circularRoots.Climbs false 0 examined classes →
        (repeated examined).card ≤ circularRoots.size - examined.toFinset.card + 1)) ∧
    (circularRoots.LosesWay false 0 ↔
      ¬ ∃ examined classes, circularRoots.Climbs false 0 examined classes) ∧
    (circularRoots.chain? 0 true false = none ↔ true = true ∧ circularRoots.LosesWay false 0) ∧
    (∀ examined classes, circularRoots.Climbs false 0 examined classes →
      examined.length ≤ 2 * circularRoots.size ∧
        ∀ t ∈ repeated examined, circularRoots.isRoot t = true ∧ false = false ∧ t ≠ 0) ∧
    (∀ classes, ∃ visited, circularRoots.Gathers (classes.flatMap circularRoots.interfaces) classes
      visited (circularRoots.withInterfaces classes) ∧ visited.Nodup ∧
        ∀ t ∈ visited, t < circularRoots.size) :=
  ⟨closed_circularRoots, by decide, bounded_iff closed_circularRoots (by decide) true false⟩

/-- Going up ends, but five links for four types do not suffice. -/
example : circularRoots.lineage? 0 false = some [0, 3] ∧
    circularRoots.climb false 5 (circularRoots.base? 0) [0] = none := by decide

/-- A universal base type that is its own base, and a type below it. -/
def ownBase : TypeGraph :=
  ⟨#[{ name := "Object", modifiers := { isRoot := true }, base := some 0 },
    { name := "Service", base := some 0 }]⟩

theorem closed_ownBase : ownBase.Closed := by
  intro s t hlink
  match s, hlink with
  | 0, .inl hbase => cases hbase; decide
  | 1, .inl hbase => cases hbase; decide

/-- Above the type the walk goes round the universal base type for ever. -/
theorem losesWay_ownBase : ownBase.LosesWay false 1 := by
  refine ⟨0, .single rfl, .single rfl, fun s hs => ?_⟩
  have hzero : s = 0 := by
    induction hs with
    | refl => rfl
    | tail _ hlink ih =>
      subst ih
      exact (Option.some.inj hlink).symm
  subst hzero
  decide

theorem not_bounded_ownBase : ¬ ∀ g : TypeGraph, g.Closed → ∀ ty < g.size,
    ∀ inherits includeRoot : Bool, g.Bounded ty inherits includeRoot := by
  intro h
  obtain ⟨chain, hchain, -⟩ := h ownBase closed_ownBase 1 (by decide) true false
  cases hchain.symm.trans (chain?_eq_none_iff.2 ⟨rfl, losesWay_ownBase⟩)

end MarkerIndex.Host.TypeGraph
