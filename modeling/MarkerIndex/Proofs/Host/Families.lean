/-
Leaves of one family. A method that overrides several leaves takes the place of the first of them
alone; it passes over the others, which stay leaves beside it. This is the only way in which a leaf
comes to override another one: leaves that are not both declared by the first type of the chain are
unrelated exactly when none of them passed over another.
-/
import MarkerIndex.Proofs.Host.Leaves

namespace MarkerIndex.Host.OverrideRule

variable {rule : OverrideRule} {chain : List TypeDecl}

/-! ## Passing over -/

/-- The candidates of the first type, which are leaves from the start. -/
def firstCandidates (chain : List TypeDecl) : List Method := candidatesOf (chain.take 1)

/-- The candidates that are met one after the other. -/
def laterCandidates (chain : List TypeDecl) : List Method := candidatesOf (chain.drop 1)

/-- When `m` is met no leaf overrides it; it overrides the leaf `b`, and another one in front of
`b` whose place it takes. -/
def PassesOver (rule : OverrideRule) (chain : List TypeDecl) (m b : Method) : Prop :=
  ∃ met more front back, laterCandidates chain = met ++ m :: more ∧
    met.foldl rule.meet (firstCandidates chain) = front ++ b :: back ∧
    (∀ l ∈ front ++ b :: back, ¬ rule.Overrides l m) ∧
    (∃ c ∈ front, rule.Overrides m c) ∧ rule.Overrides m b

theorem candidatesOf_split (chain : List TypeDecl) :
    candidatesOf chain = firstCandidates chain ++ laterCandidates chain := by
  rw [firstCandidates, laterCandidates, candidatesOf, candidatesOf, candidatesOf,
    ← List.flatMap_append, List.take_append_drop]

theorem leaves_eq (chain : List TypeDecl) :
    rule.leaves chain = (laterCandidates chain).foldl rule.meet (firstCandidates chain) := by
  cases chain with
  | nil => rfl
  | cons first rest =>
    rw [firstCandidates, List.take_one, candidatesOf]
    simp [leaves, laterCandidates, candidatesOf]

/-! ## Leaves that override leaves -/

theorem overrides_irrefl {a : Method} : ¬ rule.Overrides a a := fun h => (overrides_iff.1 h).1 rfl

/-- A leaf does not override one that was met after it. -/
theorem not_overrides_later (h : Distinct chain) {a b : Method} {met more : List Method}
    (hsplit : laterCandidates chain = met ++ b :: more) (ha : a ∈ rule.leaves chain)
    (hb : b ∈ rule.leaves chain) (hmore : a ∉ more) : ¬ rule.Overrides a b := by
  intro ho
  have hne : a ≠ b := by
    rintro rfl
    exact overrides_irrefl ho
  have hd := h.candidates
  rw [candidatesOf_split, hsplit] at hd
  rw [leaves_eq, hsplit] at ha hb
  have hstood : a ∈ met.foldl rule.meet (firstCandidates chain) :=
    stood_of_leaf (by simp [hne, hmore]) ha
  exact not_overridden_when_met hd hb a hstood ho

/-- So the overriding one of two leaves was met later, while the other one stood. -/
theorem met_later_of_overrides (h : Distinct chain) {a b : Method} (ha : a ∈ rule.leaves chain)
    (hb : b ∈ rule.leaves chain) (hfirst : ¬ (a ∈ firstCandidates chain ∧ b ∈ firstCandidates chain))
    (ho : rule.Overrides a b) : ∃ met more, laterCandidates chain = met ++ a :: more ∧
      b ∉ a :: more := by
  have hd : (firstCandidates chain ++ laterCandidates chain).Nodup := by
    rw [← candidatesOf_split]; exact h.candidates.of_map
  have hne : b ≠ a := by
    rintro rfl
    exact overrides_irrefl ho
  have hmet : ∀ l ∈ rule.leaves chain, l ∈ firstCandidates chain ∨ l ∈ laterCandidates chain := by
    intro l hl
    rw [← List.mem_append, ← candidatesOf_split]
    exact mem_candidatesOf_of_leaf hl
  by_cases hlater : a ∈ laterCandidates chain
  · obtain ⟨met, more, hsplit⟩ := List.append_of_mem hlater
    refine ⟨met, more, hsplit, fun hmem => ?_⟩
    -- Had `b` been met after `a`, then `a` would have stood and discarded it.
    have hbmore : b ∈ more := (List.mem_cons.1 hmem).resolve_left hne
    obtain ⟨u, v, rfl⟩ := List.append_of_mem hbmore
    have hv : a ∉ v := by
      rw [hsplit] at hd
      have := (List.nodup_cons.1 (List.nodup_append.1 (List.nodup_append.1 hd).2.1).2.1).1
      exact fun hav => this (by simp [hav])
    have hsplit' : laterCandidates chain = (met ++ a :: u) ++ b :: v := by
      rw [hsplit, List.append_assoc]; rfl
    exact not_overrides_later h hsplit' ha hb hv ho
  · have hafirst := (hmet a ha).resolve_right hlater
    have hblater := (hmet b hb).resolve_left fun hbfirst => hfirst ⟨hafirst, hbfirst⟩
    obtain ⟨met, more, hsplit⟩ := List.append_of_mem hblater
    refine (not_overrides_later h hsplit ha hb (fun hmem => hlater ?_) ho).elim
    rw [hsplit]; simp [hmem]

/-- A leaf overrides another one exactly when it passed over it. -/
theorem overrides_iff_passesOver (h : Distinct chain) {a b : Method} (ha : a ∈ rule.leaves chain)
    (hb : b ∈ rule.leaves chain)
    (hfirst : ¬ (a ∈ firstCandidates chain ∧ b ∈ firstCandidates chain)) :
    rule.Overrides a b ↔ rule.PassesOver chain a b := by
  constructor
  · intro ho
    obtain ⟨met, more, hsplit, hmore⟩ := met_later_of_overrides h ha hb hfirst ho
    have hd := h.candidates
    rw [candidatesOf_split, hsplit] at hd
    rw [leaves_eq, hsplit] at ha hb
    have hstood : b ∈ met.foldl rule.meet (firstCandidates chain) := stood_of_leaf hmore hb
    have hkept := not_overridden_when_met hd ha
    have hnodup : (met.foldl rule.meet (firstCandidates chain)).Nodup := by
      rw [← List.append_assoc, List.map_append] at hd
      exact (distinct_foldl_meet (List.nodup_append.1 hd).1).of_map
    rw [List.foldl_append, List.foldl_cons] at hb
    rcases meet_cases rule (met.foldl rule.meet (firstCandidates chain)) a with
      ⟨l, hl, hover, _⟩ | ⟨_, ⟨front, c, back, hstanding, hc, hfront, hmeet⟩ | ⟨hnone, _⟩⟩
    · exact (hkept l hl hover).elim
    · rw [hstanding] at hstood hnodup
      -- The place that is taken is not that of `b`, which is still a leaf in the end.
      have hne : b ≠ c := by
        rintro rfl
        rw [hmeet] at hb
        obtain ⟨hbnew, _⟩ := List.nodup_cons.1 (List.nodup_middle.1 hnodup)
        rw [List.mem_cons, not_or] at hmore
        refine hbnew ?_
        simpa [hmore.1] using (mem_foldl_meet hb).resolve_right hmore.2
      have hback : b ∈ back := by
        rcases List.mem_append.1 hstood with hb | hb
        · exact (hfront b hb ho).elim
        · exact (List.mem_cons.1 hb).resolve_left hne
      obtain ⟨u, v, rfl⟩ := List.append_of_mem hback
      refine ⟨met, more, front ++ c :: u, v, hsplit, ?_, ?_, ⟨c, by simp, hc⟩, ho⟩
      · rw [hstanding, List.append_assoc]; rfl
      · rw [hstanding] at hkept
        intro l hl
        exact hkept l (by simpa using hl)
    · exact (hnone b hstood ho).elim
  · rintro ⟨_, _, _, _, _, _, _, _, ho⟩
    exact ho

/-- A method that passes over another one is not declared by the first type. -/
theorem PassesOver.not_mem_first (h : Distinct chain) {m b : Method}
    (hm : rule.PassesOver chain m b) : m ∉ methodsOf (chain.take 1) := by
  obtain ⟨met, more, _, _, hsplit, _⟩ := hm
  have hlater : m ∈ methodsOf (chain.drop 1) := by
    have hcandidate : m ∈ candidatesOf (chain.drop 1) := by
      rw [← laterCandidates, hsplit]; simp
    exact (mem_candidatesOf.1 hcandidate).1
  have hd : (methodsOf (chain.take 1) ++ methodsOf (chain.drop 1)).Nodup := by
    rw [methodsOf, methodsOf, ← List.flatMap_append, List.take_append_drop]
    exact h.of_map
  exact fun hfirst => (List.nodup_append.1 hd).2.2 m hfirst m hlater rfl

/-- Different leaves that are not both declared by the first type are unrelated exactly when no
leaf passed over another one. -/
theorem leaves_unrelated_iff (rule : OverrideRule) (h : Distinct chain) :
    (∀ a ∈ rule.leaves chain, ∀ b ∈ rule.leaves chain, a ≠ b →
      ¬ (a ∈ methodsOf (chain.take 1) ∧ b ∈ methodsOf (chain.take 1)) →
        ¬ rule.Overrides a b ∧ ¬ rule.Overrides b a) ↔
    ∀ a ∈ rule.leaves chain, ∀ b ∈ rule.leaves chain, ¬ rule.PassesOver chain a b := by
  have hdeclared : ∀ m ∈ firstCandidates chain, m ∈ methodsOf (chain.take 1) :=
    fun _ hm => (mem_candidatesOf.1 hm).1
  have hrelated : ∀ a ∈ rule.leaves chain, ∀ b ∈ rule.leaves chain,
      ¬ (a ∈ methodsOf (chain.take 1) ∧ b ∈ methodsOf (chain.take 1)) →
        (rule.Overrides a b ↔ rule.PassesOver chain a b) := fun a ha b hb hfirst =>
    overrides_iff_passesOver h ha hb fun ⟨ha', hb'⟩ => hfirst ⟨hdeclared a ha', hdeclared b hb'⟩
  constructor
  · intro hall a ha b hb hpass
    have hfirst : ¬ (a ∈ methodsOf (chain.take 1) ∧ b ∈ methodsOf (chain.take 1)) :=
      fun hboth => hpass.not_mem_first h hboth.1
    have ho := (hrelated a ha b hb hfirst).2 hpass
    have hne : a ≠ b := by
      rintro rfl
      exact overrides_irrefl ho
    exact (hall a ha b hb hne hfirst).1 ho
  · intro hall a ha b hb _ hfirst
    exact ⟨fun ho => hall a ha b hb ((hrelated a ha b hb hfirst).1 ho),
      fun ho => hall b hb a ha ((hrelated b hb a ha fun hboth => hfirst hboth.symm).1 ho)⟩

/-! ### A method of a narrow type behind two of wider types -/

/-- A class with two interfaces whose methods give values of unrelated types. -/
def twoInterfaces : List TypeDecl :=
  [{ name := "C" }, { name := "I", modifiers := .interface, methods := [getter "I" "X" []] },
    { name := "J", modifiers := .interface, methods := [getter "J" "Y" []] }]

/-- The class with a third interface, whose method gives values of a narrower type. -/
def threeInterfaces : List TypeDecl :=
  twoInterfaces ++ [{ name := "K", modifiers := .interface, methods := [getter "K" "Z" []] }]

/-- Values of `Z` may stand for values of `X` and of `Y`. -/
def narrowing : Hierarchy := .ofPairs [("X", "Z"), ("Y", "Z")]

theorem narrowing_reflexive : narrowing.Reflexive := fun a => by
  simp [narrowing, Hierarchy.ofPairs]

theorem narrowing_transitive : narrowing.Transitive := by
  intro a b c hab hbc
  simp only [narrowing, Hierarchy.ofPairs, Bool.or_eq_true, beq_iff_eq, List.contains_eq_mem,
    List.mem_cons, Prod.mk.injEq, List.not_mem_nil, or_false, decide_eq_true_eq] at *
  rcases hab with rfl | ⟨rfl, rfl⟩ | ⟨rfl, rfl⟩
  · exact hbc
  · simp at hbc; simp [hbc]
  · simp at hbc; simp [hbc]

theorem leaves_unrelated_twoInterfaces : Distinct twoInterfaces ∧
    ∀ a ∈ (⟨narrowing, .covariant⟩ : OverrideRule).leaves twoInterfaces,
      ∀ b ∈ (⟨narrowing, .covariant⟩ : OverrideRule).leaves twoInterfaces, a ≠ b →
        ¬ (a ∈ methodsOf (twoInterfaces.take 1) ∧ b ∈ methodsOf (twoInterfaces.take 1)) →
          ¬ (⟨narrowing, .covariant⟩ : OverrideRule).Overrides a b ∧
            ¬ (⟨narrowing, .covariant⟩ : OverrideRule).Overrides b a := by
  have hd : Distinct twoInterfaces := by
    unfold Distinct; decide
  refine ⟨hd, (leaves_unrelated_iff _ hd).2 ?_⟩
  rintro a ha b hb ⟨_, _, _, _, _, _, _, _, ho⟩
  have hleaves : (⟨narrowing, .covariant⟩ : OverrideRule).leaves twoInterfaces =
      [getter "I" "X" [], getter "J" "Y" []] := rfl
  rw [hleaves, List.mem_pair] at ha hb
  unfold Overrides at ho
  rcases ha with rfl | rfl <;> rcases hb with rfl | rfl <;> revert ho <;> decide

/-- The method of the third interface takes the place of the first method and leaves the second
one standing, which it overrides as well. -/
theorem not_leaves_unrelated_threeInterfaces :
    ¬ ∀ (chain : List TypeDecl) (rule : OverrideRule), Distinct chain →
      rule.hierarchy.Reflexive → rule.hierarchy.Transitive →
        ∀ a ∈ rule.leaves chain, ∀ b ∈ rule.leaves chain, a ≠ b →
          ¬ (a ∈ methodsOf (chain.take 1) ∧ b ∈ methodsOf (chain.take 1)) →
            ¬ rule.Overrides a b ∧ ¬ rule.Overrides b a := by
  intro h
  have hleaves : (⟨narrowing, .covariant⟩ : OverrideRule).leaves threeInterfaces =
      [getter "K" "Z" [], getter "J" "Y" []] := rfl
  have hrelated := h threeInterfaces ⟨narrowing, .covariant⟩ (by unfold Distinct; decide)
    narrowing_reflexive narrowing_transitive (getter "K" "Z" []) (by rw [hleaves]; simp)
    (getter "J" "Y" []) (by rw [hleaves]; simp) (by simp [getter])
    (by simp [methodsOf, threeInterfaces, twoInterfaces])
  refine hrelated.1 ?_
  unfold Overrides; decide

end MarkerIndex.Host.OverrideRule
