/-
Gathering interfaces, depth first. `Gathers` says what is visited on the way: an interface that was
found is passed, and a new one is added and its own interfaces are visited before the next one is.
What was found when a visit begins need not have been visited itself; yet in the end the interfaces
of everything new are found, which makes the result closed once the classes in front are visited in
turn as well. No interface is visited twice, so the depth that gathering is given never runs out.
-/
import MarkerIndex.Proofs.Host.ChainShape
import Mathlib.Data.Finset.Card

namespace MarkerIndex.Host.TypeGraph

open Relation

variable {g : TypeGraph} {i s t : TypeId} {is js found mid result visited : List TypeId}

/-- A link from a type to one of its interfaces. -/
def InterfaceLink (g : TypeGraph) (s t : TypeId) : Prop := t ∈ g.interfaces s

/-- Going through the interfaces `is` with the types `found` ends with the types `result`, and
`visited` are the interfaces that it goes into, in order. -/
inductive Gathers (g : TypeGraph) :
    List TypeId → List TypeId → List TypeId → List TypeId → Prop
  | done (found : List TypeId) : Gathers g [] found [] found
  | known {i : TypeId} {is found visited result : List TypeId} : i ∈ found →
      Gathers g is found visited result → Gathers g (i :: is) found visited result
  | new {i : TypeId} {is found inner mid visited result : List TypeId} : i ∉ found →
      Gathers g (g.interfaces i) (found ++ [i]) inner mid → Gathers g is mid visited result →
      Gathers g (i :: is) found (i :: (inner ++ visited)) result

namespace Gathers

/-! ## What is found -/

theorem result_eq (h : g.Gathers is found visited result) : result = found ++ visited := by
  induction h with
  | done => simp
  | known _ _ ih => exact ih
  | new _ _ _ ihInner ih => rw [ih, ihInner]; simp

theorem append {visited' : List TypeId} (h : g.Gathers is found visited mid)
    (h' : g.Gathers js mid visited' result) :
    g.Gathers (is ++ js) found (visited ++ visited') result := by
  induction h with
  | done => exact h'
  | known hmem _ ih => exact .known hmem (ih h')
  | new hnew hinner _ _ ih =>
    rw [List.cons_append, List.cons_append, List.append_assoc]
    exact .new hnew hinner (ih h')

/-- Nothing that was found is visited. -/
theorem not_mem_found (h : g.Gathers is found visited result) : ∀ t ∈ visited, t ∉ found := by
  induction h with
  | done => simp
  | known _ _ ih => exact ih
  | new hnew hinner _ ihInner ih =>
    intro t ht hfound
    rcases List.mem_cons.1 ht with rfl | ht
    · exact hnew hfound
    · rcases List.mem_append.1 ht with ht | ht
      · exact ihInner t ht (List.mem_append_left _ hfound)
      · refine ih t ht ?_
        rw [hinner.result_eq]
        simp [hfound]

theorem nodup_visited (h : g.Gathers is found visited result) : visited.Nodup := by
  induction h with
  | done => exact List.nodup_nil
  | known _ _ ih => exact ih
  | @new i _ _ inner _ _ _ _ hinner hrest ihInner ih =>
    have hmid := hinner.result_eq
    refine List.nodup_cons.2 ⟨fun hi => ?_, List.nodup_append.2 ⟨ihInner, ih, ?_⟩⟩
    · rcases List.mem_append.1 hi with hi | hi
      · exact hinner.not_mem_found i hi (by simp)
      · exact hrest.not_mem_found i hi (by simp [hmid])
    · rintro t ht _ ht' rfl
      exact hrest.not_mem_found t ht' (by simp [hmid, ht])

/-- Whatever is visited is reached from the interfaces that are gone through. -/
theorem reached (h : g.Gathers is found visited result) :
    ∀ t ∈ visited, ∃ i ∈ is, ReflTransGen g.InterfaceLink i t := by
  induction h with
  | done => simp
  | known _ _ ih =>
    intro t ht
    obtain ⟨i, hi, hreach⟩ := ih t ht
    exact ⟨i, List.mem_cons_of_mem _ hi, hreach⟩
  | new _ _ _ ihInner ih =>
    intro t ht
    rcases List.mem_cons.1 ht with rfl | ht
    · exact ⟨t, List.mem_cons_self, .refl⟩
    · rcases List.mem_append.1 ht with ht | ht
      · obtain ⟨j, hj, hreach⟩ := ihInner t ht
        exact ⟨_, List.mem_cons_self, .head hj hreach⟩
      · obtain ⟨j, hj, hreach⟩ := ih t ht
        exact ⟨j, List.mem_cons_of_mem _ hj, hreach⟩

/-- The interfaces gone through are found, and so are those of everything visited. -/
theorem closed (h : g.Gathers is found visited result) :
    is ⊆ result ∧ ∀ t ∈ visited, g.interfaces t ⊆ result := by
  induction h with
  | done => simp
  | known hmem hrest ih =>
    refine ⟨List.cons_subset.2 ⟨?_, ih.1⟩, ih.2⟩
    rw [hrest.result_eq]
    exact List.mem_append_left _ hmem
  | @new i _ _ _ mid _ result _ hinner hrest ihInner ih =>
    have hsub : mid ⊆ result := by
      rw [hrest.result_eq]
      exact List.subset_append_left _ _
    have hi : i ∈ mid := by rw [hinner.result_eq]; simp
    refine ⟨List.cons_subset.2 ⟨hsub hi, ih.1⟩, fun t ht => ?_⟩
    rcases List.mem_cons.1 ht with rfl | ht
    · exact List.Subset.trans ihInner.1 hsub
    · rcases List.mem_append.1 ht with ht | ht
      · exact List.Subset.trans (ihInner.2 t ht) hsub
      · exact ih.2 t ht

end Gathers

/-! ## Gathering to a depth -/

/-- How many types of the graph were not found. -/
def unseen (g : TypeGraph) (found : List TypeId) : Nat :=
  (Finset.range g.size \ found.toFinset).card

theorem unseen_subset (found more : List TypeId) :
    Finset.range g.size \ (found ++ more).toFinset ⊆ Finset.range g.size \ found.toFinset := by
  refine Finset.sdiff_subset_sdiff (Finset.Subset.refl _) fun t ht => ?_
  rw [List.toFinset_append]
  exact Finset.mem_union_left _ ht

theorem unseen_append_le (found more : List TypeId) : g.unseen (found ++ more) ≤ g.unseen found :=
  Finset.card_le_card (unseen_subset found more)

theorem unseen_append_new (hi : i < g.size) (hnew : i ∉ found) :
    g.unseen (found ++ [i]) < g.unseen found := by
  refine Finset.card_lt_card ?_
  refine (Finset.ssubset_iff_of_subset (unseen_subset found [i])).2 ⟨i, ?_, ?_⟩
  · simp [hi, hnew]
  · simp

theorem interfaces_eq_nil (h : ¬ i < g.size) : g.interfaces i = [] := by
  by_contra hne
  obtain ⟨t, ht⟩ := List.exists_mem_of_ne_nil _ hne
  exact h (lt_size_of_link (.inr ht))

theorem gather_eq_self (h : ¬ i < g.size) (depth : Nat) (found : List TypeId) :
    g.gather depth i found = found := by
  cases depth <;> simp [gather, interfaces_eq_nil h]

/-- Gathering goes through the interfaces of its type when the depth exceeds the number of types
not found. -/
theorem gathers_gather {depth : Nat} (h : g.unseen found < depth) (id : TypeId) :
    ∃ visited, g.Gathers (g.interfaces id) found visited (g.gather depth id found) := by
  induction depth generalizing id found with
  | zero => exact absurd h (Nat.not_lt_zero _)
  | succ depth ih =>
    rw [gather]
    -- The inner induction is on the interfaces, with the types found so far general.
    generalize g.interfaces id = is
    induction is generalizing found with
    | nil => exact ⟨[], .done found⟩
    | cons i is ihs =>
      rw [List.foldl_cons]
      split
      next hmem =>
        obtain ⟨visited, hrest⟩ := ihs h
        exact ⟨visited, .known (by simpa using hmem) hrest⟩
      next hmem =>
        have hnew : i ∉ found := by simpa using hmem
        obtain ⟨inner, hinner⟩ : ∃ inner, g.Gathers (g.interfaces i) (found ++ [i]) inner
            (g.gather depth i (found ++ [i])) := by
          by_cases hi : i < g.size
          · exact ih (by have := unseen_append_new hi hnew; omega) i
          · -- What is no type of the graph has no interfaces.
            rw [gather_eq_self hi, interfaces_eq_nil hi]
            exact ⟨[], .done _⟩
        have hdepth : g.unseen (g.gather depth i (found ++ [i])) < depth + 1 := by
          rw [hinner.result_eq, List.append_assoc]
          exact Nat.lt_of_le_of_lt (unseen_append_le _ _) h
        obtain ⟨visited, hrest⟩ := ihs hdepth
        exact ⟨_, .new hnew hinner hrest⟩

/-! ## Gathering behind classes -/

/-- Going through the classes in turn is going through all their interfaces. -/
theorem gathers_withInterfaces (g : TypeGraph) (classes : List TypeId) :
    ∃ visited, g.Gathers (classes.flatMap g.interfaces) classes visited
      (g.withInterfaces classes) := by
  unfold withInterfaces
  suffices hall : ∀ found : List TypeId, ∃ visited, g.Gathers (classes.flatMap g.interfaces) found
      visited (classes.foldl (fun found id => g.gather (g.size + 1) id found) found) from
    hall classes
  induction classes with
  | nil => exact fun found => ⟨[], .done found⟩
  | cons id classes ih =>
    intro found
    have hdepth : g.unseen found < g.size + 1 := by
      have : g.unseen found ≤ (Finset.range g.size).card := Finset.card_le_card Finset.sdiff_subset
      rw [Finset.card_range] at this
      omega
    obtain ⟨inner, hinner⟩ := gathers_gather hdepth id
    obtain ⟨visited, hrest⟩ := ih (g.gather (g.size + 1) id found)
    exact ⟨inner ++ visited, hinner.append hrest⟩

/-- Behind the classes stand exactly the types not among them that one or more interface links from
them lead to. -/
theorem Gathers.mem_visited_iff {classes : List TypeId}
    (h : g.Gathers (classes.flatMap g.interfaces) classes visited result) :
    t ∈ visited ↔ t ∉ classes ∧ ∃ s ∈ classes, TransGen g.InterfaceLink s t := by
  constructor
  · intro ht
    refine ⟨h.not_mem_found t ht, ?_⟩
    obtain ⟨i, hi, hreach⟩ := h.reached t ht
    obtain ⟨s, hs, hlink⟩ := List.mem_flatMap.1 hi
    exact ⟨s, hs, .head' hlink hreach⟩
  · rintro ⟨hnot, s, hs, hreach⟩
    obtain ⟨hthrough, hvisited⟩ := h.closed
    -- The result is closed under interface links, also at the classes that were only passed.
    have hclosed : ∀ u ∈ result, g.interfaces u ⊆ result := by
      intro u hu
      rw [h.result_eq] at hu
      rcases List.mem_append.1 hu with hu | hu
      · exact fun v hv => hthrough (List.mem_flatMap.2 ⟨u, hu, hv⟩)
      · exact hvisited u hu
    have hmem : t ∈ result := by
      clear hnot
      induction hreach with
      | single hlink => exact hthrough (List.mem_flatMap.2 ⟨s, hs, hlink⟩)
      | tail _ hlink ih => exact hclosed _ ih hlink
    rw [h.result_eq] at hmem
    exact (List.mem_append.1 hmem).resolve_left hnot

end MarkerIndex.Host.TypeGraph
