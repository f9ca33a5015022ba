/-
Going up from a type, link by link. `Rises` says which base links have been examined, where the
walk stands and which classes it has found; a universal base type that is left out is passed
without being found. The walk stops where there is no base or the base was found already, and the
lineage is what was found there. It never stops in a cycle of types that are all left out; outside
of such a cycle no type is examined three times, so the walk stops within a bound.
-/
import MarkerIndex.Proofs.Host.ChainShape
import Mathlib.Algebra.BigOperators.Group.Finset.Piecewise
import Mathlib.Data.List.Chain

namespace MarkerIndex.Host.TypeGraph

open Relation

variable {g : TypeGraph} {includeRoot : Bool} {ty id s t : TypeId} {seen found : List TypeId}

/-! ## One step and a walk -/

/-- A link from a type to its base. -/
def BaseLink (g : TypeGraph) (s t : TypeId) : Prop := g.base? s = some t

/-- The type is a universal base type, and these are not asked for. -/
def leavesOut (g : TypeGraph) (includeRoot : Bool) (t : TypeId) : Bool := g.isRoot t && !includeRoot

/-- The walk up from `ty` comes to the type `id` with the classes `found`; `seen` are the types
whose base links it then has examined, the last of which is that of `id`. -/
inductive Rises (g : TypeGraph) (includeRoot : Bool) (ty : TypeId) :
    List TypeId → TypeId → List TypeId → Prop
  | start : Rises g includeRoot ty [ty] ty [ty]
  | step {seen found : List TypeId} {id base : TypeId} : Rises g includeRoot ty seen id found →
      g.BaseLink id base → base ∉ found →
      Rises g includeRoot ty (seen ++ [base]) base
        (if g.leavesOut includeRoot base then found else found ++ [base])

/-- The walk goes no further: there is no base, or it was found. -/
def Stops (g : TypeGraph) (id : TypeId) (found : List TypeId) : Prop :=
  ∀ base, g.BaseLink id base → base ∈ found

/-- The walk up from `ty` examines the base links of `examined` in turn and ends with `classes`. -/
def Climbs (g : TypeGraph) (includeRoot : Bool) (ty : TypeId) (examined classes : List TypeId) :
    Prop :=
  ∃ id, g.Rises includeRoot ty examined id classes ∧ g.Stops id classes

theorem BaseLink.eq {u : TypeId} (h : g.BaseLink s t) (h' : g.BaseLink s u) : t = u :=
  Option.some.inj (h.symm.trans h')

theorem rightUnique_baseLink (g : TypeGraph) : Relator.RightUnique g.BaseLink :=
  fun _ _ _ h h' => h.eq h'

theorem BaseLink.link (h : g.BaseLink s t) : g.Link s t := .inl h

/-! ## What a walk has seen and found -/

/-- The walk follows base links from its type to where it stands. -/
theorem Rises.path (h : g.Rises includeRoot ty seen id found) :
    ∃ before, seen = before ++ [id] ∧ (before ++ [id]).IsChain g.BaseLink := by
  induction h with
  | start => exact ⟨[], rfl, .singleton _⟩
  | step _ hlink _ ih =>
    obtain ⟨before, rfl, hpath⟩ := ih
    refine ⟨_, rfl, List.isChain_append.2 ⟨hpath, .singleton _, ?_⟩⟩
    simpa using hlink

/-- The classes found are the type and those of the types seen after it that are not left out. -/
theorem Rises.found_eq (h : g.Rises includeRoot ty seen id found) :
    ∃ rest, seen = ty :: rest ∧ found = ty :: rest.filter fun t => !g.leavesOut includeRoot t := by
  induction h with
  | start => exact ⟨[], rfl, rfl⟩
  | @step seen found id base _ _ _ ih =>
    obtain ⟨rest, rfl, rfl⟩ := ih
    refine ⟨rest ++ [base], rfl, ?_⟩
    cases hout : g.leavesOut includeRoot base <;> simp [hout]

theorem Rises.mem_found_iff (h : g.Rises includeRoot ty seen id found) :
    t ∈ found ↔ t = ty ∨ t ∈ seen ∧ g.leavesOut includeRoot t = false := by
  obtain ⟨rest, rfl, rfl⟩ := h.found_eq
  simp only [List.mem_cons, List.mem_filter, Bool.not_eq_true']
  tauto

theorem Rises.start_mem (h : g.Rises includeRoot ty seen id found) : ty ∈ seen := by
  obtain ⟨rest, rfl, -⟩ := h.found_eq
  exact List.mem_cons_self

/-- What is found was seen. -/
theorem Rises.mem_seen (h : g.Rises includeRoot ty seen id found) (ht : t ∈ found) : t ∈ seen := by
  rcases h.mem_found_iff.1 ht with rfl | ⟨hseen, -⟩
  · exact h.start_mem
  · exact hseen

theorem Rises.reached (h : g.Rises includeRoot ty seen id found) :
    ∀ t ∈ seen, ReflTransGen g.BaseLink ty t := by
  induction h with
  | start => exact fun t ht => by rw [List.mem_singleton.1 ht]
  | step h hlink _ ih =>
    intro t ht
    rcases List.mem_append.1 ht with ht | ht
    · exact ih t ht
    · rw [List.mem_singleton.1 ht]
      obtain ⟨before, hseen, -⟩ := h.path
      exact (ih _ (by simp [hseen])).tail hlink

theorem Rises.reaches (h : g.Rises includeRoot ty seen id found) (ht : t ∈ seen) :
    ReflTransGen g.BaseLink t id := by
  induction h with
  | start => rw [List.mem_singleton.1 ht]
  | step _ hlink _ ih =>
    rcases List.mem_append.1 ht with ht | ht
    · exact (ih ht).tail hlink
    · rw [List.mem_singleton.1 ht]

/-- Only a type that is left out is seen twice. -/
theorem Rises.leavesOut_of_count (h : g.Rises includeRoot ty seen id found)
    (ht : 1 < seen.count t) : g.leavesOut includeRoot t = true ∧ t ≠ ty := by
  induction h with
  | start => exact absurd ht (by simp [List.count_singleton]; split <;> omega)
  | @step seen found id base h _ hnew ih =>
    by_cases hb : base = t
    · -- The type was seen before, and yet it was not found.
      subst hb
      have hseen : base ∈ seen := by
        rw [List.count_append, List.count_singleton_self] at ht
        exact List.count_pos_iff.1 (by omega)
      rw [h.mem_found_iff, not_or, not_and, Bool.not_eq_false] at hnew
      exact ⟨hnew.2 hseen, hnew.1⟩
    · refine ih ?_
      rwa [List.count_append, List.count_singleton, if_neg (by simpa using hb), Nat.add_zero] at ht

/-! ## Cycles -/

/-- Every link of a path but the last leads on along the path. -/
theorem exists_next {path : List TypeId} (h : (path ++ [s]).IsChain g.BaseLink) (ht : t ∈ path) :
    ∃ u ∈ path ++ [s], g.BaseLink t u := by
  obtain ⟨before, after, rfl⟩ := List.append_of_mem ht
  rw [List.append_assoc, List.cons_append] at h
  have hchain := (List.isChain_append.1 h).2.1
  cases after with
  | nil => exact ⟨s, by simp, (List.isChain_cons_cons.1 hchain).1⟩
  | cons u after => exact ⟨u, by simp, (List.isChain_cons_cons.1 hchain).1⟩

/-- A path that comes back to where it starts passes everything that can be reached from there. -/
theorem mem_of_cycle {path : List TypeId} (h : (s :: path ++ [s]).IsChain g.BaseLink)
    (ht : ReflTransGen g.BaseLink s t) : t ∈ s :: path := by
  induction ht with
  | refl => exact List.mem_cons_self
  | tail _ hlink ih =>
    obtain ⟨u, hu, hnext⟩ := exists_next h ih
    obtain rfl := hlink.eq hnext
    rcases List.mem_append.1 hu with hu | hu
    · exact hu
    · rw [List.mem_singleton.1 hu]
      exact List.mem_cons_self

theorem transGen_of_path {path : List TypeId} (h : (s :: path ++ [t]).IsChain g.BaseLink) :
    TransGen g.BaseLink s t := by
  induction path generalizing s with
  | nil => exact .single (List.isChain_cons_cons.1 h).1
  | cons u path ih =>
    obtain ⟨hlink, hrest⟩ := List.isChain_cons_cons.1 h
    exact .head hlink (ih hrest)

/-- From what is reached from a cycle, the cycle is reached again. -/
theorem reaches_back (hcycle : TransGen g.BaseLink s s) (ht : ReflTransGen g.BaseLink s t) :
    ReflTransGen g.BaseLink t s := by
  induction ht with
  | refl => exact .refl
  | tail _ hlink ih =>
    -- From the type one link earlier, one or more links lead to the cycle, and the first is this.
    obtain ⟨_, hfirst, hrest⟩ := TransGen.head'_iff.1 (TransGen.trans_right ih hcycle)
    rwa [hlink.eq hfirst]

/-- Above the type there is a cycle of base links among types that are all left out, and the type
itself is not one of them. -/
def LosesWay (g : TypeGraph) (includeRoot : Bool) (ty : TypeId) : Prop :=
  ∃ r, ReflTransGen g.BaseLink ty r ∧ TransGen g.BaseLink r r ∧
    ∀ s, ReflTransGen g.BaseLink r s → g.leavesOut includeRoot s = true ∧ s ≠ ty

/-- No type is left out when universal base types are asked for. -/
theorem not_losesWay_true : ¬ g.LosesWay true ty := by
  rintro ⟨r, -, -, h⟩
  simpa [leavesOut] using (h r .refl).1

theorem not_losesWay_of_acyclic (h : ∀ t, ¬ TransGen g.BaseLink t t) :
    ¬ g.LosesWay includeRoot ty := fun ⟨r, _, hr, _⟩ => h r hr

/-- The list around three places of one of its members. -/
theorem exists_thrice (h : 2 < seen.count t) :
    ∃ as bs cs ds, seen = as ++ (t :: bs ++ (t :: cs ++ t :: ds)) := by
  obtain ⟨as, rest, rfl, has⟩ := List.eq_append_cons_of_mem
    (List.count_pos_iff.1 (by omega : 0 < seen.count t))
  rw [List.count_append, List.count_eq_zero_of_not_mem has, List.count_cons_self] at h
  obtain ⟨bs, rest, rfl, hbs⟩ := List.eq_append_cons_of_mem
    (List.count_pos_iff.1 (by omega : 0 < rest.count t))
  rw [List.count_append, List.count_eq_zero_of_not_mem hbs, List.count_cons_self] at h
  obtain ⟨cs, ds, rfl⟩ := List.append_of_mem (List.count_pos_iff.1 (by omega : 0 < rest.count t))
  exact ⟨as, bs, cs, ds, by simp⟩

/-- Outside of such cycles no type is seen three times. -/
theorem Rises.count_le_two (h : g.Rises includeRoot ty seen id found)
    (hno : ¬ g.LosesWay includeRoot ty) (t : TypeId) : seen.count t ≤ 2 := by
  by_contra hthree
  obtain ⟨as, bs, cs, ds, rfl⟩ := exists_thrice (Nat.not_le.1 hthree)
  obtain ⟨before, hseen, hpath⟩ := h.path
  rw [← hseen] at hpath
  -- Between three sightings the walk goes round twice, so it sees the whole cycle twice.
  have hfirst : (t :: bs ++ [t]).IsChain g.BaseLink := hpath.infix ⟨as, cs ++ t :: ds, by simp⟩
  have hsecond : (t :: cs ++ [t]).IsChain g.BaseLink := hpath.infix ⟨as ++ t :: bs, ds, by simp⟩
  refine hno ⟨t, h.reached t (by simp), transGen_of_path hfirst, fun u hu => ?_⟩
  refine h.leavesOut_of_count ?_
  have honce := List.count_pos_iff.2 (mem_of_cycle hfirst hu)
  have hagain := List.count_pos_iff.2 (mem_of_cycle hsecond hu)
  rw [List.count_append, List.count_append, List.count_append]
  omega

/-! ## Where the walk ends -/

/-- In a cycle of types that are left out the walk does not stop. -/
theorem not_stops_of_losesWay (hlost : g.LosesWay includeRoot ty)
    (h : g.Rises includeRoot ty seen id found) : ¬ g.Stops id found := by
  obtain ⟨r, hr, hcycle, hout⟩ := hlost
  obtain ⟨before, rfl, -⟩ := h.path
  -- Whatever base the walk stands in front of, it can be reached from the cycle.
  have hnot : ∀ base, ReflTransGen g.BaseLink r base → base ∉ found := by
    intro base hbase hfound
    rcases h.mem_found_iff.1 hfound with rfl | ⟨-, hkept⟩
    · exact (hout base hbase).2 rfl
    · rw [(hout base hbase).1] at hkept
      cases hkept
  intro hstops
  have hid : ReflTransGen g.BaseLink ty id := h.reached id (by simp)
  rcases ReflTransGen.total_of_right_unique g.rightUnique_baseLink hr hid with hrid | hidr
  · have hround := TransGen.trans_right (reaches_back hcycle hrid) hcycle
    obtain ⟨base, hlink, -⟩ := TransGen.head'_iff.1 hround
    exact hnot base (hrid.tail hlink) (hstops base hlink)
  · obtain ⟨base, hlink, hbase⟩ := TransGen.head'_iff.1 (TransGen.trans_right hidr hcycle)
    have hfound := hstops base hlink
    -- The base was seen on the way to where the walk stands, so both are on one cycle.
    have hround : TransGen g.BaseLink base base := .tail' (h.reaches (h.mem_seen hfound)) hlink
    exact hnot base (reaches_back hround hbase) hfound

/-! ## How long the walk is -/

/-- The types that are seen more than once. -/
def repeated (seen : List TypeId) : Finset TypeId := {t ∈ seen.toFinset | 1 < seen.count t}

/-- When no type is seen three times, the walk is longer than the number of types it sees by those
it sees twice. -/
theorem length_eq_card_add (h : ∀ t, seen.count t ≤ 2) :
    seen.length = seen.toFinset.card + (repeated seen).card := by
  rw [← List.sum_toFinset_count_eq_length, Finset.card_eq_sum_ones, repeated, Finset.card_filter,
    ← Finset.sum_add_distrib]
  refine Finset.sum_congr rfl fun t ht => ?_
  have hpos := List.count_pos_iff.2 (List.mem_toFinset.1 ht)
  have htwo := h t
  split <;> omega

/-- The types whose base links lead on are types of the graph. -/
theorem Rises.subset_range (h : g.Rises includeRoot ty seen id found) :
    ∃ before, seen = before ++ [id] ∧ before.toFinset ⊆ Finset.range g.size := by
  obtain ⟨before, rfl, hpath⟩ := h.path
  refine ⟨before, rfl, fun t ht => ?_⟩
  obtain ⟨u, -, hlink⟩ := exists_next hpath (List.mem_toFinset.1 ht)
  exact Finset.mem_range.2 (lt_size_of_link hlink.link)

/-- A walk that does not lose its way is at most twice as long as there are types. -/
theorem Rises.length_le (h : g.Rises includeRoot ty seen id found)
    (hno : ¬ g.LosesWay includeRoot ty) : seen.length ≤ 2 * g.size + 1 := by
  have htwo := h.count_le_two hno
  obtain ⟨before, rfl, hsub⟩ := h.subset_range
  have hlength : before.length = before.toFinset.card + (repeated before).card := by
    refine length_eq_card_add fun t => ?_
    have := htwo t
    rw [List.count_append] at this
    omega
  have hcard : before.toFinset.card ≤ g.size := by simpa using Finset.card_le_card hsub
  have hrepeated : (repeated before).card ≤ before.toFinset.card :=
    Finset.card_le_card (Finset.filter_subset _ _)
  simp only [List.length_append, List.length_singleton]
  omega

/-! ## The lineage -/

/-- Going up with a budget takes the steps of the walk one by one. -/
theorem Rises.climb_eq (h : g.Rises includeRoot ty seen id found) (budget : Nat) :
    g.climb includeRoot (budget + seen.length) (g.base? ty) [ty] =
      g.climb includeRoot (budget + 1) (g.base? id) found := by
  induction h generalizing budget with
  | start => rfl
  | @step seen found id base h hlink hnew ih =>
    have hlink : g.base? id = some base := hlink
    rw [List.length_append, List.length_singleton, ← Nat.add_assoc, Nat.add_right_comm, ih, hlink,
      climb, if_neg (by simpa using hnew)]
    rfl

/-- A walk that ends within the budget ends with what going up gives. -/
theorem Climbs.climb_eq {examined classes : List TypeId}
    (h : g.Climbs includeRoot ty examined classes) {budget : Nat} (hb : examined.length ≤ budget) :
    g.climb includeRoot budget (g.base? ty) [ty] = some classes := by
  obtain ⟨id, hrises, hstops⟩ := h
  have hclimb := hrises.climb_eq (budget - examined.length)
  rw [Nat.sub_add_cancel hb] at hclimb
  rw [hclimb]
  cases hbase : g.base? id with
  | none => rfl
  | some base => rw [climb, if_pos (by simpa using hstops base hbase)]

/-- Going up from where a walk stands goes on with it, to its end or for the whole budget. -/
theorem Rises.go_on (h : g.Rises includeRoot ty seen id found) (budget : Nat) :
    (∃ examined classes, g.climb includeRoot budget (g.base? id) found = some classes ∧
      g.Climbs includeRoot ty examined classes) ∨
    g.climb includeRoot budget (g.base? id) found = none ∧
      ∃ seen' id' found', g.Rises includeRoot ty seen' id' found' ∧
        seen'.length = seen.length + budget := by
  induction budget generalizing seen id found with
  | zero =>
    cases hbase : g.base? id with
    | none => exact .inl ⟨seen, found, rfl, id, h, fun _ hlink => by cases hbase.symm.trans hlink⟩
    | some base => exact .inr ⟨rfl, seen, id, found, h, rfl⟩
  | succ budget ih =>
    cases hbase : g.base? id with
    | none => exact .inl ⟨seen, found, rfl, id, h, fun _ hlink => by cases hbase.symm.trans hlink⟩
    | some base =>
      rw [climb]
      split
      next hmem =>
        refine .inl ⟨seen, found, rfl, id, h, fun base' hlink => ?_⟩
        rw [← BaseLink.eq hbase hlink]
        simpa using hmem
      next hnew =>
        have hstep := h.step hbase (by simpa using hnew)
        rcases ih hstep with hends | ⟨hnone, seen', id', found', hrises, hlength⟩
        · exact .inl hends
        · refine .inr ⟨hnone, seen', id', found', hrises, ?_⟩
          rw [hlength, List.length_append, List.length_singleton]
          omega

/-- The walk comes to an end unless it loses its way. -/
theorem exists_climbs_iff :
    (∃ examined classes, g.Climbs includeRoot ty examined classes) ↔
      ¬ g.LosesWay includeRoot ty := by
  constructor
  · rintro ⟨examined, classes, id, hrises, hstops⟩ hlost
    exact not_stops_of_losesWay hlost hrises hstops
  · intro hno
    have hstart : g.Rises includeRoot ty [ty] ty [ty] := .start
    rcases hstart.go_on g.climbSteps with
      ⟨examined, classes, -, h⟩ | ⟨-, seen, id, found, hrises, hlength⟩
    · exact ⟨examined, classes, h⟩
    · have := hrises.length_le hno
      simp only [climbSteps, List.length_singleton] at hlength
      omega

/-- The lineage is what the walk finds. -/
theorem lineage?_eq_some_iff {classes : List TypeId} :
    g.lineage? ty includeRoot = some classes ↔
      ∃ examined, g.Climbs includeRoot ty examined classes := by
  constructor
  · intro h
    have hstart : g.Rises includeRoot ty [ty] ty [ty] := .start
    rcases hstart.go_on g.climbSteps with ⟨examined, classes', hsome, hclimbs⟩ | ⟨hnone, -⟩
    · cases h.symm.trans hsome
      exact ⟨examined, hclimbs⟩
    · cases h.symm.trans hnone
  · rintro ⟨examined, h⟩
    refine h.climb_eq ?_
    have hno := exists_climbs_iff.1 ⟨examined, classes, h⟩
    obtain ⟨id, hrises, -⟩ := h
    have := hrises.length_le hno
    rw [climbSteps]
    omega

/-- There is no lineage exactly when the walk loses its way. -/
theorem lineage?_eq_none_iff : g.lineage? ty includeRoot = none ↔ g.LosesWay includeRoot ty := by
  rw [← not_iff_not, ← exists_climbs_iff, ← ne_eq, Option.ne_none_iff_exists', exists_comm]
  simp only [lineage?_eq_some_iff]

/-! ## The chain -/

theorem chain?_of_lineage? {classes : List TypeId} (h : g.lineage? ty includeRoot = some classes) :
    g.chain? ty true includeRoot = some (g.withInterfaces classes) := by
  rw [chain?, if_pos rfl, h, Option.map_some]

/-- There is no chain exactly when the walk up loses its way. -/
theorem chain?_eq_none_iff {inherits : Bool} :
    g.chain? ty inherits includeRoot = none ↔ inherits = true ∧ g.LosesWay includeRoot ty := by
  cases inherits with
  | false => simp [chain?]
  | true => simp [chain?, lineage?_eq_none_iff]

/-- Otherwise the chain is not made up. -/
theorem chain?_eq_some_chain {inherits : Bool}
    (h : inherits = true → ¬ g.LosesWay includeRoot ty) :
    g.chain? ty inherits includeRoot = some (g.chain ty inherits includeRoot) := by
  have hne : g.chain? ty inherits includeRoot ≠ none := fun hnone =>
    h (chain?_eq_none_iff.1 hnone).1 (chain?_eq_none_iff.1 hnone).2
  obtain ⟨ids, hids⟩ := Option.ne_none_iff_exists'.1 hne
  rw [hids, chain_of_chain? hids]

end MarkerIndex.Host.TypeGraph
