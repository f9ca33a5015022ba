/-
The markers of a leaf and those it takes over. The first marker of each type in the order of the
chain is reported, so a leaf reports a marker of its own unless a method in front of it that it
overrides carries one of the same type. With equal return types no leaf has such a method in front
of it; a leaf of a narrower return type does when it took the place of another one.
-/
import MarkerIndex.Proofs.Host.Attribution
import MarkerIndex.Proofs.Host.MostDerived

namespace MarkerIndex

/-! ## The first of each type -/

namespace MarkerOf

variable {ε : Type}

theorem get?_firstOfEachType (ms : List (Marker ε)) (type : String) :
    (firstOfEachType ms).get? type = ms.find? fun m => m.type = type := by
  rw [firstOfEachType, Entries.get?_firsts, List.find?_map, Option.map_map]
  show Option.map id _ = _
  rw [Option.map_id]; rfl

/-- A marker that is listed is the first of its type. -/
theorem find?_of_mem_values {ms : List (Marker ε)} {m : Marker ε}
    (h : m ∈ (firstOfEachType ms).values) : (ms.find? fun x => x.type = m.type) = some m := by
  obtain ⟨e, he, rfl⟩ := List.mem_map.1 h
  have hget := Entries.get?_of_mem (Entries.distinct_firsts _) he
  rw [(mem_firstOfEachType ms he).2] at hget
  rw [← get?_firstOfEachType]; exact hget

end MarkerOf

namespace Host.OverrideRule

variable {rule : OverrideRule} {chain : List TypeDecl} {leaf : Method}

/-! ## In front of a leaf -/

/-- The markers of the methods in front of `leaf` in the chain that it overrides. -/
def markersInFront (rule : OverrideRule) (chain : List TypeDecl) (leaf : Method) :
    List (Marker Unit) :=
  (((methodsOf chain).takeWhile fun m => !isSame m leaf).filter
    fun m => rule.method leaf m false).flatMap (·.markers)

/-- In a chain of pairwise different methods, what is in front of a leaf is what is in front of the
one place where it stands. -/
theorem markersInFront_eq (h : Distinct chain) {front back : List Method}
    (hsplit : methodsOf chain = front ++ leaf :: back) : markersInFront rule chain leaf =
      (front.filter fun m => rule.method leaf m true).flatMap (·.markers) := by
  have hother : ∀ m ∈ front, identity m ≠ identity leaf := by
    unfold Distinct at h
    rw [hsplit, List.map_append] at h
    intro m hm
    exact (List.nodup_append.1 h).2.2 _ (List.mem_map_of_mem hm) _ (by simp)
  have hfront : (front ++ leaf :: back).takeWhile (fun m => !isSame m leaf) = front := by
    rw [List.takeWhile_append_of_pos fun m hm => by simpa [isSame] using hother m hm]
    simp [isSame]
  rw [markersInFront, hsplit, hfront]
  congr 1
  refine List.filter_congr fun m hm => ?_
  rw [Bool.eq_iff_iff, method_self]
  constructor
  · exact Or.inr
  · rintro (hid | ho)
    · exact absurd hid.symm (hother m hm)
    · exact ho

/-- The markers of a family: those in front of the leaf, its own, and those behind it. -/
theorem family_markers (rule : OverrideRule) (h : Distinct chain) (hl : leaf ∈ methodsOf chain) :
    ∃ behind, ((methodsOf chain).filter fun m => rule.method leaf m true).flatMap (·.markers) =
      markersInFront rule chain leaf ++ (leaf.markers ++ behind) := by
  obtain ⟨front, back, hsplit⟩ := List.append_of_mem hl
  have hself : rule.method leaf leaf true = true := method_self.2 (.inl rfl)
  refine ⟨(back.filter fun m => rule.method leaf m true).flatMap (·.markers), ?_⟩
  rw [markersInFront_eq h hsplit, hsplit, List.filter_append, List.filter_cons, if_pos hself,
    List.flatMap_append, List.flatMap_cons]

/-- Of a type of markers that the leaf carries, the first one in front of the leaf is reported, and
the first one on the leaf when there is none. -/
theorem eq_of_mem_mergedMarkers (h : Distinct chain) (hl : leaf ∈ methodsOf chain) {type : String}
    {d : Marker Unit} (hd : (leaf.markers.find? fun m => m.type = type) = some d)
    {x : Marker Method} (hx : x ∈ rule.mergedMarkers leaf chain) (htype : x.type = type) :
    x = (((markersInFront rule chain leaf).find? fun m => m.type = type).getD d).withElement
      (some leaf) := by
  subst htype
  obtain ⟨behind, hfamily⟩ := family_markers rule h hl
  have hfirst := MarkerOf.find?_of_mem_values hx
  have hmerged : (chain.flatMap (·.methods)).filter (fun m => rule.method leaf m true) =
      (methodsOf chain).filter fun m => rule.method leaf m true := rfl
  rw [hmerged, hfamily, List.find?_map, Option.map_eq_some_iff] at hfirst
  obtain ⟨e, he, rfl⟩ := hfirst
  have hsame : ((fun m : Marker Method => decide (m.type = (e.withElement (some leaf)).type)) ∘
      fun m : Marker Unit => m.withElement (some leaf)) = fun m => decide (m.type = e.type) := rfl
  have hown : (leaf.markers.find? fun m => m.type = e.type) = some d := hd
  -- Of the three parts of the family the search ends in one of the first two.
  rw [hsame, List.find?_append, List.find?_append, hown] at he
  show _ = MarkerOf.withElement (Option.getD (List.find? (fun m => m.type = e.type) _) d) _
  cases hfront : (markersInFront rule chain leaf).find? fun m => m.type = e.type with
  | none => rw [hfront] at he; cases he; rfl
  | some d' => rw [hfront] at he; cases he; rfl

/-! ## Equal return types -/

/-- With equal return types methods override each other. -/
theorem Overrides.symm_of_exact (hp : rule.policy = .exact) {a b : Method}
    (h : rule.Overrides a b) : rule.Overrides b a ∧ a.signature = b.signature := by
  obtain ⟨hid, ⟨has, hbs⟩, ⟨hap, hbp⟩, hsig⟩ := overrides_iff.1 h
  have heq : a.signature = b.signature := by
    unfold OverrideRule.signature at hsig
    simp only [hp, Bool.and_eq_true, beq_iff_eq] at hsig
    cases ha : a.signature
    cases hb : b.signature
    rw [ha, hb] at hsig
    obtain ⟨⟨rfl, rfl⟩, rfl⟩ := hsig
    rfl
  refine ⟨overrides_iff.2 ⟨hid.symm, ⟨hbs, has⟩, ⟨hbp, hap⟩, ?_⟩, heq⟩
  rw [heq] at hsig ⊢
  exact hsig

/-- The methods of each type are declared under one name. -/
def OneOwner (chain : List TypeDecl) : Prop :=
  ∀ t ∈ chain, ∀ a ∈ t.methods, ∀ b ∈ t.methods, a.owner = b.owner

/-- With equal return types a leaf overrides no marked method in front of it. -/
theorem markersInFront_of_exact (hp : rule.policy = .exact) (ht : rule.hierarchy.Transitive)
    (h : Distinct chain) (howner : OneOwner chain) (hl : leaf ∈ rule.leaves chain) :
    markersInFront rule chain leaf = [] := by
  obtain ⟨hmethod, hcandidate⟩ := mem_candidatesOf.1 (mem_candidatesOf_of_leaf hl)
  obtain ⟨t, hchain, hlt⟩ := List.mem_flatMap.1 hmethod
  obtain ⟨A, B, rfl⟩ := List.append_of_mem hchain
  obtain ⟨u, w, hmethods⟩ := List.append_of_mem hlt
  have hsplit : methodsOf (A ++ t :: B) = (methodsOf A ++ u) ++ leaf :: (w ++ methodsOf B) := by
    rw [methodsOf, List.flatMap_append, List.flatMap_cons, hmethods]
    simp [methodsOf]
  rw [markersInFront_eq h hsplit, List.flatMap_eq_nil_iff]
  intro m hm
  obtain ⟨hm, hover⟩ := List.mem_filter.1 hm
  have hmem : m ∈ methodsOf (A ++ t :: B) := by rw [hsplit]; exact List.mem_append_left _ hm
  by_contra hmarked
  have ho : rule.Overrides leaf m := by
    rcases (method_iff_covers h hmethod hmem).1 hover with rfl | ho
    · have hnodup := h.of_map
      rw [hsplit] at hnodup
      exact ((List.nodup_append.1 hnodup).2.2 _ hm _ (by simp) rfl).elim
    · exact ho
  obtain ⟨hback, hsig⟩ := ho.symm_of_exact hp
  rcases List.mem_append.1 hm with hA | hu
  · -- A candidate of an earlier type would have kept the leaf from being one.
    have hcm : m ∈ candidatesOf A := mem_candidatesOf.2 ⟨hA, by simp [Method.isCandidate, hmarked]⟩
    have hcl : leaf ∈ candidatesOf (t :: B) := mem_candidatesOf.2
      ⟨List.mem_flatMap.2 ⟨t, by simp, hlt⟩, hcandidate⟩
    exact not_overridden_from_front ht h hl hcl hcm hback
  · -- In one type methods of one signature are the same method.
    have hmt : m ∈ t.methods := by rw [hmethods]; exact List.mem_append_left _ hu
    have hown := howner t hchain leaf hlt m hmt
    exact (overrides_iff.1 ho).1 (Prod.ext hown hsig)

/-- Which marker a leaf reports of a type that it carries itself: the first one in front of the
leaf, on a method that it overrides, if there is one; so the first one on the leaf itself is
reported, or one with the same properties, exactly when the first one in front has its properties.
With equal return types nothing is in front. -/
theorem own_marker_reported_iff (rule : OverrideRule) (ht : rule.hierarchy.Transitive)
    (h : Distinct chain) :
    (∀ e ∈ rule.resolve chain, ∀ type d, (e.1.markers.find? fun m => m.type = type) = some d →
      ∃ x ∈ e.2, x.type = type ∧ (∀ y ∈ e.2, y.type = type → y = x) ∧
        (x.properties = d.properties ↔ ∀ d',
          ((markersInFront rule chain e.1).find? fun m => m.type = type) = some d' →
            d'.properties = d.properties)) ∧
    (rule.policy = .exact → OneOwner chain →
      ∀ e ∈ rule.resolve chain, markersInFront rule chain e.1 = []) := by
  have hleaves := leavesOf_leaves ht h
  constructor
  · rintro ⟨leaf, xs⟩ he type d hd
    obtain ⟨hleaf, hxs, -⟩ := (mem_resolve hleaves.distinct).1 he
    dsimp only at hleaf hxs hd ⊢
    subst hxs
    have hl : leaf ∈ methodsOf chain := (mem_candidatesOf.1 (mem_candidatesOf_of_leaf hleaf)).1
    have hdm : d ∈ leaf.markers := List.mem_of_find?_eq_some hd
    have hdt : d.type = type := by simpa using List.find?_some hd
    have hlisted := type_mem_mergedMarkers h hl hl (.inl rfl : rule.Covers leaf leaf) hdm
    obtain ⟨x, hx, hxt⟩ := List.mem_map.1 hlisted
    rw [hdt] at hxt
    have hreported : ∀ y ∈ rule.mergedMarkers leaf chain, y.type = type →
        y = (((markersInFront rule chain leaf).find? fun m => m.type = type).getD d).withElement
          (some leaf) := fun y hy hyt => eq_of_mem_mergedMarkers h hl hd hy hyt
    refine ⟨x, hx, hxt, fun y hy hyt => (hreported y hy hyt).trans (hreported x hx hxt).symm, ?_⟩
    rw [hreported x hx hxt]
    cases (markersInFront rule chain leaf).find? fun m => m.type = type with
    | none => simp [MarkerOf.withElement]
    | some d' => simp [MarkerOf.withElement]
  · intro hp howner e he
    obtain ⟨hleaf, -, -⟩ := (mem_resolve hleaves.distinct).1 he
    exact markersInFront_of_exact hp ht h howner hleaf

/-! ### A leaf that took the place of another one -/

/-- The properties with one number. -/
def numbered (n : Int32) : Properties := ⟨[("value", .scalar (.int n))], []⟩

/-- A class that lists an interface and then another one that extends the first; the method of the
second one gives values of a narrower type, and both are marked. -/
def narrowedInterfaces : TypeGraph :=
  ⟨#[{ name := "A", modifiers := .interface,
       methods := [getter "A" "X" [⟨"Marked", numbered 1, none⟩]] },
    { name := "B", modifiers := .interface, interfaces := [0],
      methods := [getter "B" "Z" [⟨"Marked", numbered 2, none⟩]] },
    { name := "C", interfaces := [0, 1] }]⟩

/-- Values of `Z` may stand for values of `X`. -/
def narrower : OverrideRule := ⟨.ofPairs [("X", "Z")], .covariant⟩

theorem narrower_reflexive : narrower.hierarchy.Reflexive := fun a => by
  simp [narrower, Hierarchy.ofPairs]

theorem narrower_transitive : narrower.hierarchy.Transitive := by
  intro a b c hab hbc
  simp only [narrower, Hierarchy.ofPairs, Bool.or_eq_true, beq_iff_eq, List.contains_eq_mem,
    List.mem_singleton, Prod.mk.injEq, decide_eq_true_eq] at *
  rcases hab with rfl | ⟨rfl, rfl⟩
  · exact hbc
  · simp at hbc; simp [hbc]

theorem sameLinks_narrowedInterfaces : narrowedInterfaces.SameLinks extendedInterfaces := by
  constructor
  · rfl
  · funext id
    match id with
    | 0 | 1 | 2 | _ + 3 => rfl
  · funext id
    match id with
    | 0 | 1 | 2 | _ + 3 => rfl
  · funext id
    match id with
    | 0 | 1 | 2 | _ + 3 => rfl

theorem closed_narrowedInterfaces : narrowedInterfaces.Closed := by
  intro s t hlink
  rw [sameLinks_narrowedInterfaces.link] at hlink
  exact closed_extendedInterfaces s t hlink

theorem acyclic_narrowedInterfaces : narrowedInterfaces.Acyclic := by
  intro t hsub
  rw [sameLinks_narrowedInterfaces.properSubtype] at hsub
  exact acyclic_extendedInterfaces t hsub

theorem chain_narrowedInterfaces : narrowedInterfaces.chain 2 true false = [2, 0, 1] := by decide

theorem distinct_narrowedInterfaces : Distinct (narrowedInterfaces.decls [2, 0, 1]) := by
  unfold Distinct; decide

theorem numbered_ne : numbered 1 ≠ numbered 2 := by
  intro h
  simp only [numbered, Layered.mk.injEq, List.cons.injEq, Prod.mk.injEq, Value.scalar.injEq,
    Scalar.int.injEq] at h
  exact absurd h.1.1.2 (by decide)

/-- The leaf is the method of the second interface. -/
theorem resolve_narrowedInterfaces : narrower.resolve (narrowedInterfaces.decls [2, 0, 1]) =
    [(getter "B" "Z" [⟨"Marked", numbered 2, none⟩],
      [⟨"Marked", numbered 1, some (getter "B" "Z" [⟨"Marked", numbered 2, none⟩])⟩])] := rfl

theorem own_marker_not_reported_narrowed : narrower.hierarchy.Transitive ∧
    Distinct (narrowedInterfaces.decls [2, 0, 1]) ∧
      ∃ e ∈ narrower.resolve (narrowedInterfaces.decls [2, 0, 1]),
        (e.1.markers.find? fun m => m.type = "Marked") = some ⟨"Marked", numbered 2, none⟩ ∧
          ∃ x ∈ e.2, x.type = "Marked" ∧ x.properties ≠ numbered 2 := by
  refine ⟨narrower_transitive, distinct_narrowedInterfaces, _,
    by rw [resolve_narrowedInterfaces]; exact List.mem_singleton_self _, rfl, ?_⟩
  obtain ⟨x, hx, hxt, -, hiff⟩ :=
    (own_marker_reported_iff narrower narrower_transitive distinct_narrowedInterfaces).1 _
      (by rw [resolve_narrowedInterfaces]; exact List.mem_singleton_self _) "Marked"
      ⟨"Marked", numbered 2, none⟩ rfl
  refine ⟨x, hx, hxt, fun hp => numbered_ne ?_⟩
  exact hiff.1 hp ⟨"Marked", numbered 1, none⟩ rfl

/-- The leaf overrides the method of the first interface and reports the marker of that method in
the place of its own. -/
theorem not_ownMarkersReported_narrowedInterfaces :
    ¬ ∀ g : TypeGraph, g.Closed → g.Acyclic → ∀ (ty : TypeId) (includeRoot : Bool)
      (rule : OverrideRule), rule.hierarchy.Reflexive → rule.hierarchy.Transitive →
        Distinct (g.decls (g.chain ty true includeRoot)) →
          ∀ e ∈ rule.resolve (g.decls (g.chain ty true includeRoot)), ∀ type d,
            (e.1.markers.find? fun m => m.type = type) = some d →
              ∀ x ∈ e.2, x.type = type → x.properties = d.properties := by
  intro h
  have hreported := h narrowedInterfaces closed_narrowedInterfaces acyclic_narrowedInterfaces 2
    false narrower narrower_reflexive narrower_transitive
  rw [chain_narrowedInterfaces, resolve_narrowedInterfaces] at hreported
  exact numbered_ne (hreported distinct_narrowedInterfaces _ (List.mem_singleton_self _) "Marked"
    ⟨"Marked", numbered 2, none⟩ rfl _ (List.mem_singleton_self _) rfl)

end Host.OverrideRule

end MarkerIndex
