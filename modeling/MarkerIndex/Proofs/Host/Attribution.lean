/-
Attribution of markers to leaves. Every marker of a method in the chain is reported by the method
itself or by one that overrides it, once for its type; and nothing else is reported: what a leaf
reports is declared on a method that it covers.
-/
import MarkerIndex.Proofs.Host.Leaves
import MarkerIndex.Proofs.Layered.Listing
import Mathlib.Data.List.Count

namespace MarkerIndex

/-! ## The first of each type -/

namespace MarkerOf

variable {ε : Type} (ms : List (Marker ε))

theorem mem_firstOfEachType {e : String × Marker ε} (h : e ∈ firstOfEachType ms) :
    e.2 ∈ ms ∧ e.1 = e.2.type := by
  obtain ⟨m, hm, rfl⟩ := List.mem_map.1 (Entries.mem_of_mem_firsts h)
  exact ⟨hm, rfl⟩

/-- The types of the first markers are their names, so no type occurs twice. -/
theorem types_firstOfEachType :
    (firstOfEachType ms).values.map (·.type) = (firstOfEachType ms).keys := by
  rw [Entries.values, List.map_map, Entries.keys]
  exact List.map_congr_left fun e he => (mem_firstOfEachType ms he).2.symm

theorem mem_types_firstOfEachType {type : String} :
    type ∈ (firstOfEachType ms).values.map (·.type) ↔ type ∈ ms.map (·.type) := by
  rw [types_firstOfEachType, firstOfEachType, Entries.keys_firsts, List.mem_eraseDups,
    List.map_map]
  rfl

theorem nodup_types_firstOfEachType : ((firstOfEachType ms).values.map (·.type)).Nodup := by
  rw [types_firstOfEachType]
  exact Entries.distinct_firsts _

end MarkerOf

namespace Host

/-! ## Tables -/

namespace MemberTable

variable {β : Type}

/-- The data of a new member go to the end. -/
theorem insert_of_new {t : MemberTable Method β} {m : Method} {data : β}
    (h : ∀ e ∈ t, identity e.1 ≠ identity m) : t.insert m data = t ++ [(m, data)] := by
  induction t with
  | nil => rfl
  | cons e t ih =>
    have he : isSame e.1 m = false := by simpa [isSame] using h e (by simp)
    rw [insert, he, if_neg (by simp), ih fun d hd => h d (by simp [hd])]
    rfl

end MemberTable

namespace OverrideRule

variable {rule : OverrideRule} {chain : List TypeDecl}

/-- The leaves that carry markers are listed in their order, each with its markers. -/
theorem resolve_eq (hd : ((rule.leaves chain).map identity).Nodup) :
    rule.resolve chain = ((rule.leaves chain).filter fun l =>
      !(rule.mergedMarkers l chain).isEmpty).map fun l => (l, rule.mergedMarkers l chain) := by
  unfold resolve
  -- The leaves are different members, so every one of them is new to the table.
  generalize rule.leaves chain = ls at hd
  suffices h : ∀ t : MemberTable Method (List (Marker Method)),
      (∀ e ∈ t, ∀ l ∈ ls, identity e.1 ≠ identity l) →
      ls.foldl (fun table leaf =>
        let markers := rule.mergedMarkers leaf chain
        if markers.isEmpty then table else table.insert leaf markers) t =
      t ++ (ls.filter fun l => !(rule.mergedMarkers l chain).isEmpty).map fun l =>
        (l, rule.mergedMarkers l chain) by
    exact h [] fun e he => by cases he
  induction ls with
  | nil => intro t _; simp
  | cons l ls ih =>
    intro t ht
    rw [List.map_cons, List.nodup_cons] at hd
    rw [List.foldl_cons]
    by_cases hempty : (rule.mergedMarkers l chain).isEmpty = true
    · simp only [hempty, if_true]
      rw [ih hd.2 t fun e he k hk => ht e he k (by simp [hk])]
      simp [hempty]
    · simp only [hempty]
      rw [MemberTable.insert_of_new fun e he => ht e he l (by simp)]
      have hnew : ∀ e ∈ t ++ [(l, rule.mergedMarkers l chain)], ∀ k ∈ ls,
          identity e.1 ≠ identity k := by
        intro e he k hk
        rcases List.mem_append.1 he with he | he
        · exact ht e he k (by simp [hk])
        · rw [List.mem_singleton.1 he]
          exact fun hid => hd.1 (List.mem_map.2 ⟨k, hk, hid.symm⟩)
      refine (ih hd.2 _ hnew).trans ?_
      simp [hempty]

theorem mem_resolve (hd : ((rule.leaves chain).map identity).Nodup)
    {e : Method × List (Marker Method)} : e ∈ rule.resolve chain ↔
      e.1 ∈ rule.leaves chain ∧ e.2 = rule.mergedMarkers e.1 chain ∧ e.2 ≠ [] := by
  rw [resolve_eq hd, List.mem_map]
  constructor
  · rintro ⟨l, hl, rfl⟩
    obtain ⟨hl, hne⟩ := List.mem_filter.1 hl
    exact ⟨hl, rfl, by simpa using hne⟩
  · rintro ⟨hl, hm, hne⟩
    refine ⟨e.1, List.mem_filter.2 ⟨hl, ?_⟩, by rw [← hm]⟩
    simpa [← hm] using hne

/-- In a chain of pairwise different methods, a leaf takes over from what it covers. -/
theorem method_iff_covers (h : Distinct chain) {leaf m : Method} (hl : leaf ∈ methodsOf chain)
    (hm : m ∈ methodsOf chain) : rule.method leaf m true = true ↔ rule.Covers leaf m := by
  rw [method_self, Covers]
  exact or_congr ⟨h.eq_of_identity hl hm, fun e => by rw [e]⟩ Iff.rfl

/-- The markers of a leaf are declared on methods that it covers. -/
theorem mem_mergedMarkers (h : Distinct chain) {leaf : Method} (hl : leaf ∈ methodsOf chain)
    {x : Marker Method} (hx : x ∈ rule.mergedMarkers leaf chain) :
    ∃ m ∈ methodsOf chain, ∃ d ∈ m.markers, rule.Covers leaf m ∧
      x = d.withElement (some leaf) := by
  obtain ⟨e, he, rfl⟩ := List.mem_map.1 hx
  obtain ⟨d, hd, hx⟩ := List.mem_map.1 (MarkerOf.mem_firstOfEachType _ he).1
  obtain ⟨m, hm, hdm⟩ := List.mem_flatMap.1 hd
  obtain ⟨hm, hover⟩ := List.mem_filter.1 hm
  exact ⟨m, hm, d, hdm, (method_iff_covers h hl hm).1 hover, hx.symm⟩

/-- The type of every marker on a method that a leaf covers is the type of one of its markers. -/
theorem type_mem_mergedMarkers (h : Distinct chain) {leaf m : Method}
    (hl : leaf ∈ methodsOf chain) (hm : m ∈ methodsOf chain) (hc : rule.Covers leaf m)
    {d : Marker Unit} (hd : d ∈ m.markers) :
    d.type ∈ (rule.mergedMarkers leaf chain).map (·.type) := by
  rw [mergedMarkers, MarkerOf.mem_types_firstOfEachType, List.map_map]
  have hfamily : m ∈ (chain.flatMap (·.methods)).filter fun m => rule.method leaf m true :=
    List.mem_filter.2 ⟨hm, (method_iff_covers h hl hm).2 hc⟩
  exact List.mem_map.2 ⟨d, List.mem_flatMap.2 ⟨m, hfamily, hd⟩, rfl⟩

/-- Attribution is complete and sound: every marker of a method in the chain is reported once for
its type by a leaf that is the method or overrides it; and what a leaf reports is on the leaf, no
two of one type, each declared on a method that is the leaf or is overridden by it. Static and
private methods report their own markers and contribute to themselves alone. -/
theorem resolve_attributes (rule : OverrideRule) (ht : rule.hierarchy.Transitive) (h : Distinct chain) :
    (∀ m ∈ methodsOf chain, ∀ d ∈ m.markers, ∃ e ∈ rule.resolve chain,
      e.1 ∈ rule.leaves chain ∧ rule.Covers e.1 m ∧ (e.2.map (·.type)).count d.type = 1) ∧
    ∀ e ∈ rule.resolve chain, e.1 ∈ rule.leaves chain ∧ (e.2.map (·.type)).Nodup ∧
      ∀ x ∈ e.2, x.element = some e.1 ∧
        ∃ m ∈ methodsOf chain, ∃ d ∈ m.markers, rule.Covers e.1 m ∧
          x.type = d.type ∧ x.properties = d.properties ∧
          (e.1.isStatic ∨ e.1.isPrivate ∨ m.isStatic ∨ m.isPrivate → m = e.1) := by
  have hleaves := leavesOf_leaves ht h
  have hmethods : ∀ l ∈ rule.leaves chain, l ∈ methodsOf chain := fun l hl =>
    (mem_candidatesOf.1 (mem_candidatesOf_of_leaf hl)).1
  constructor
  · intro m hm d hd
    -- A marked method is a candidate, and every candidate is covered by a leaf.
    have hcandidate : m ∈ candidatesOf chain := by
      refine mem_candidatesOf.2 ⟨hm, ?_⟩
      have : m.markers ≠ [] := List.ne_nil_of_mem hd
      simp [Method.isCandidate, this]
    obtain ⟨l, hl, hc⟩ := hleaves.covered m hcandidate
    have htype := type_mem_mergedMarkers h (hmethods l hl) hm hc hd
    refine ⟨(l, rule.mergedMarkers l chain), (mem_resolve hleaves.distinct).2 ⟨hl, rfl, ?_⟩, hl, hc,
      ?_⟩
    · intro (hnil : rule.mergedMarkers l chain = [])
      rw [hnil] at htype; cases htype
    · exact List.count_eq_one_of_mem (MarkerOf.nodup_types_firstOfEachType _) htype
  · rintro ⟨l, xs⟩ he
    obtain ⟨hl, hxs, _⟩ := (mem_resolve hleaves.distinct).1 he
    dsimp only at hl hxs
    subst hxs
    refine ⟨hl, MarkerOf.nodup_types_firstOfEachType _, fun x hx => ?_⟩
    obtain ⟨m, hm, d, hd, hc, rfl⟩ := mem_mergedMarkers h (hmethods l hl) hx
    exact ⟨rfl, m, hm, d, hd, hc, rfl, rfl, fun hs => (hc.eq_of_static_or_private hs).symm⟩

/-! ### A method and one that overrides it -/

/-- A type that overrides a marked method of its base. -/
def sampleChain : List TypeDecl :=
  [{ name := "Derived", methods := [getter "Derived" "int" []] },
    { name := "Base", methods := [getter "Base" "int" [⟨"Marked", .empty, none⟩]] }]

theorem resolve_attributes_sampleChain :
    Hierarchy.exact.Transitive ∧ Distinct sampleChain ∧
      ∃ e ∈ (⟨.exact, .covariant⟩ : OverrideRule).resolve sampleChain,
        e.1 ∈ (⟨.exact, .covariant⟩ : OverrideRule).leaves sampleChain ∧
        (⟨.exact, .covariant⟩ : OverrideRule).Covers e.1
          (getter "Base" "int" [⟨"Marked", .empty, none⟩]) ∧
        (e.2.map (·.type)).count "Marked" = 1 := by
  have hd : Distinct sampleChain := by
    unfold Distinct; decide
  refine ⟨Hierarchy.exact_transitive, hd, ?_⟩
  exact (resolve_attributes ⟨.exact, .covariant⟩ Hierarchy.exact_transitive hd).1
    _ (by simp [methodsOf, sampleChain]) ⟨"Marked", .empty, none⟩ (by simp [getter])

end OverrideRule

end Host

end MarkerIndex
