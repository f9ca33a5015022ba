/-
The leaves of a chain while it is gone through. Meeting a method does one of three things: a leaf
that overrides it discards it, it takes the place of the first leaf that it overrides, or it goes to
the end. When the hierarchy is transitive, every method met so far stays covered by a leaf: a leaf
that gives up its place leaves everything it overrides to the one that overrides it.
-/
import MarkerIndex.Host.Override
import Mathlib.Data.List.Nodup

namespace MarkerIndex.Host

/-- Every type is assignable to itself. -/
def Hierarchy.Reflexive (h : Hierarchy) : Prop := ∀ a, h a a = true

/-- What is assignable to a type is assignable to every type that it is assignable to. -/
def Hierarchy.Transitive (h : Hierarchy) : Prop :=
  ∀ a b c, h a b = true → h b c = true → h a c = true

theorem Hierarchy.exact_reflexive : Hierarchy.exact.Reflexive := fun a => by simp [exact]

theorem Hierarchy.exact_transitive : Hierarchy.exact.Transitive := by
  intro a b c hab hbc
  rw [exact, beq_iff_eq] at *
  exact hab.trans hbc

namespace OverrideRule

variable {rule : OverrideRule}

/-! ## Overriding -/

/-- The first method overrides the second, which is another one. -/
def Overrides (rule : OverrideRule) (a b : Method) : Prop := rule.method a b false = true

/-- The first method is the second or overrides it. -/
def Covers (rule : OverrideRule) (a b : Method) : Prop := a = b ∨ rule.Overrides a b

theorem overrides_iff {a b : Method} : rule.Overrides a b ↔ identity a ≠ identity b ∧
    (a.isStatic = false ∧ b.isStatic = false) ∧ (a.isPrivate = false ∧ b.isPrivate = false) ∧
      rule.signature a.signature b.signature = true := by
  unfold Overrides method isSame
  by_cases h : identity a = identity b
  · simp [h]
  · simp [h, and_assoc]

/-- With itself included, a method overrides what it covers. -/
theorem method_self {a b : Method} :
    rule.method a b true = true ↔ identity a = identity b ∨ rule.Overrides a b := by
  unfold Overrides method isSame
  by_cases h : identity a = identity b <;> simp [h]

theorem signature_trans (ht : rule.hierarchy.Transitive) {a b c : Signature}
    (hab : rule.signature a b = true) (hbc : rule.signature b c = true) :
    rule.signature a c = true := by
  unfold signature at *
  cases hp : rule.policy with
  | exact =>
    simp only [hp, Bool.and_eq_true, beq_iff_eq] at *
    obtain ⟨⟨hn, hps⟩, hr⟩ := hab
    obtain ⟨⟨hn', hps'⟩, hr'⟩ := hbc
    exact ⟨⟨hn.trans hn', hps.trans hps'⟩, hr.trans hr'⟩
  | covariant =>
    simp only [hp, Bool.and_eq_true, beq_iff_eq] at *
    obtain ⟨⟨hn, hps⟩, hr⟩ := hab
    obtain ⟨⟨hn', hps'⟩, hr'⟩ := hbc
    exact ⟨⟨hn.trans hn', hps.trans hps'⟩, ht _ _ _ hr' hr⟩

theorem Overrides.trans (ht : rule.hierarchy.Transitive) {a b c : Method}
    (hab : rule.Overrides a b) (hbc : rule.Overrides b c) (hne : identity a ≠ identity c) :
    rule.Overrides a c := by
  rw [overrides_iff] at *
  obtain ⟨_, ⟨has, _⟩, ⟨hap, _⟩, hsig⟩ := hab
  obtain ⟨_, ⟨_, hcs⟩, ⟨_, hcp⟩, hsig'⟩ := hbc
  exact ⟨hne, ⟨has, hcs⟩, ⟨hap, hcp⟩, signature_trans ht hsig hsig'⟩

/-- A static or private method covers itself alone, and nothing else covers it. -/
theorem Covers.eq_of_static_or_private {a b : Method} (h : rule.Covers a b)
    (hs : a.isStatic ∨ a.isPrivate ∨ b.isStatic ∨ b.isPrivate) : a = b := by
  rcases h with h | h
  · exact h
  · obtain ⟨_, ⟨has, hbs⟩, ⟨hap, hbp⟩, _⟩ := overrides_iff.1 h
    simp [has, hbs, hap, hbp] at hs

/-! ## One more method -/

/-- What meeting a method does. -/
theorem meet_cases (rule : OverrideRule) (leaves : List Method) (m : Method) :
    (∃ l ∈ leaves, rule.Overrides l m ∧ rule.meet leaves m = leaves) ∨
    (∀ l ∈ leaves, ¬ rule.Overrides l m) ∧
      ((∃ front b back, leaves = front ++ b :: back ∧ rule.Overrides m b ∧
          (∀ l ∈ front, ¬ rule.Overrides m l) ∧ rule.meet leaves m = front ++ m :: back) ∨
        (∀ l ∈ leaves, ¬ rule.Overrides m l) ∧ rule.meet leaves m = leaves ++ [m]) := by
  unfold meet
  split
  next h =>
    obtain ⟨l, hl, ho⟩ := List.any_eq_true.1 h
    exact .inl ⟨l, hl, ho, rfl⟩
  next h =>
    have hkept : ∀ l ∈ leaves, ¬ rule.Overrides l m := fun l hl ho =>
      h (List.any_eq_true.2 ⟨l, hl, ho⟩)
    refine .inr ⟨hkept, ?_⟩
    split
    next slot hslot =>
      -- The slot found is the first one, so nothing in front of it is overridden.
      obtain ⟨hlt, hover, hfront⟩ := List.findIdx?_eq_some_iff_getElem.1 hslot
      refine .inl ⟨leaves.take slot, leaves[slot], leaves.drop (slot + 1), ?_, hover, ?_, ?_⟩
      · simp
      · intro l hl
        obtain ⟨j, hj, rfl⟩ := List.mem_take_iff_getElem.1 hl
        exact hfront j (by omega)
      · rw [List.set_eq_take_append_cons_drop, if_pos hlt]
    next hslot =>
      refine .inr ⟨fun l hl => ?_, rfl⟩
      simpa [Overrides] using List.findIdx?_eq_none_iff.1 hslot l hl

theorem mem_meet {leaves : List Method} {m l : Method} (h : l ∈ rule.meet leaves m) :
    l ∈ leaves ∨ l = m := by
  rcases meet_cases rule leaves m with
    ⟨_, _, _, e⟩ | ⟨_, ⟨front, b, back, rfl, _, _, e⟩ | ⟨_, e⟩⟩
  · rw [e] at h; exact .inl h
  · rw [e] at h
    rcases List.mem_append.1 h with h | h
    · exact .inl (by simp [h])
    · rcases List.mem_cons.1 h with h | h
      · exact .inr h
      · exact .inl (by simp [h])
  · rw [e] at h
    rcases List.mem_append.1 h with h | h
    · exact .inl h
    · exact .inr (by simpa using h)

theorem distinct_meet {leaves : List Method} {m : Method} (hd : (leaves.map identity).Nodup)
    (hnew : ∀ l ∈ leaves, identity l ≠ identity m) :
    ((rule.meet leaves m).map identity).Nodup := by
  have hm : identity m ∉ leaves.map identity := by
    intro hmem
    obtain ⟨l, hl, hid⟩ := List.mem_map.1 hmem
    exact hnew l hl hid
  rcases meet_cases rule leaves m with
    ⟨_, _, _, e⟩ | ⟨_, ⟨front, b, back, rfl, _, _, e⟩ | ⟨_, e⟩⟩
  · rwa [e]
  · rw [e]
    simp only [List.map_append, List.map_cons, List.nodup_middle, List.nodup_cons,
      List.mem_append, List.mem_cons, not_or] at hd hm ⊢
    exact ⟨⟨hm.1, hm.2.2⟩, hd.2⟩
  · rw [e, List.map_append]
    refine List.nodup_append.2 ⟨hd, by simp, fun i hi j hj hij => hm ?_⟩
    rw [List.map_singleton, List.mem_singleton] at hj
    rwa [← hj, ← hij]

/-! ## All methods met so far -/

/-- The leaves of the methods met so far: they are among them and cover them all, and no leaf
occurs twice. -/
structure LeavesOf (rule : OverrideRule) (met leaves : List Method) : Prop where
  among : ∀ l ∈ leaves, l ∈ met
  covered : ∀ m ∈ met, ∃ l ∈ leaves, rule.Covers l m
  distinct : (leaves.map identity).Nodup

theorem leavesOf_self (rule : OverrideRule) {ms : List Method} (h : (ms.map identity).Nodup) :
    rule.LeavesOf ms ms :=
  ⟨fun _ hl => hl, fun m hm => ⟨m, hm, .inl rfl⟩, h⟩

/-- What was covered stays covered: what a replaced leaf covered is covered by the method that
overrides it. -/
theorem covered_meet (ht : rule.hierarchy.Transitive) {leaves : List Method} {m x l : Method}
    (hl : l ∈ leaves) (hc : rule.Covers l x) (hne : identity m ≠ identity x) :
    ∃ l ∈ rule.meet leaves m, rule.Covers l x := by
  rcases meet_cases rule leaves m with
    ⟨_, _, _, e⟩ | ⟨_, ⟨front, b, back, rfl, ho, _, e⟩ | ⟨_, e⟩⟩
  · exact ⟨l, by rw [e]; exact hl, hc⟩
  · rw [e]
    by_cases hlb : l = b
    · subst hlb
      refine ⟨m, by simp, .inr ?_⟩
      rcases hc with rfl | hc
      · exact ho
      · exact ho.trans ht hc hne
    · have hside : l ∈ front ∨ l ∈ back := by simpa [hlb] using hl
      exact ⟨l, by rcases hside with h | h <;> simp [h], hc⟩
  · exact ⟨l, by rw [e]; exact List.mem_append_left _ hl, hc⟩

/-- A method that is met is covered at once. -/
theorem covers_met (leaves : List Method) (m : Method) :
    ∃ l ∈ rule.meet leaves m, rule.Covers l m := by
  rcases meet_cases rule leaves m with
    ⟨l, hl, ho, e⟩ | ⟨_, ⟨front, b, back, rfl, _, _, e⟩ | ⟨_, e⟩⟩
  · exact ⟨l, by rw [e]; exact hl, .inr ho⟩
  · exact ⟨m, by simp [e], .inl rfl⟩
  · exact ⟨m, by simp [e], .inl rfl⟩

theorem LeavesOf.meet (ht : rule.hierarchy.Transitive) {met leaves : List Method} {m : Method}
    (h : rule.LeavesOf met leaves) (hnew : ∀ x ∈ met, identity x ≠ identity m) :
    rule.LeavesOf (met ++ [m]) (rule.meet leaves m) := by
  refine ⟨fun l hl => ?_, fun x hx => ?_,
    distinct_meet h.distinct fun l hl => hnew l (h.among l hl)⟩
  · rcases mem_meet hl with hl | rfl
    · exact List.mem_append_left _ (h.among l hl)
    · simp
  · rcases List.mem_append.1 hx with hx | hx
    · obtain ⟨l, hl, hc⟩ := h.covered x hx
      exact covered_meet ht hl hc (hnew x hx).symm
    · rw [List.mem_singleton] at hx
      subst hx
      exact covers_met leaves x

/-- The leaves after more methods, when no method is met twice. -/
theorem LeavesOf.foldl (ht : rule.hierarchy.Transitive) {met leaves more : List Method}
    (h : rule.LeavesOf met leaves) (hd : ((met ++ more).map identity).Nodup) :
    rule.LeavesOf (met ++ more) (more.foldl rule.meet leaves) := by
  induction more generalizing met leaves with
  | nil => rw [List.append_nil]; exact h
  | cons m more ih =>
    rw [List.append_cons] at hd ⊢
    have hnew : ∀ x ∈ met, identity x ≠ identity m := by
      rw [List.map_append, List.map_append] at hd
      have hmm := (List.nodup_append.1 hd).1
      intro x hx
      exact (List.nodup_append.1 hmm).2.2 _ (List.mem_map_of_mem hx) _ (by simp)
    exact ih (h.meet ht hnew) hd

/-! ## Leaves that stay -/

theorem mem_foldl_meet {leaves more : List Method} {l : Method}
    (h : l ∈ more.foldl rule.meet leaves) : l ∈ leaves ∨ l ∈ more := by
  induction more generalizing leaves with
  | nil => exact .inl h
  | cons m more ih =>
    rcases ih h with h | h
    · exact (mem_meet h).imp id fun e => by simp [e]
    · exact .inr (by simp [h])

theorem distinct_foldl_meet {leaves more : List Method}
    (hd : ((leaves ++ more).map identity).Nodup) :
    ((more.foldl rule.meet leaves).map identity).Nodup := by
  induction more generalizing leaves with
  | nil => rwa [List.append_nil] at hd
  | cons m more ih =>
    rw [List.map_append] at hd
    obtain ⟨hleaves, hmore, hdisjoint⟩ := List.nodup_append.1 hd
    refine ih ?_
    rw [List.map_append]
    refine List.nodup_append.2 ⟨distinct_meet hleaves fun l hl => ?_, hmore.of_cons, ?_⟩
    · exact hdisjoint _ (List.mem_map_of_mem hl) _ (by simp)
    · intro i hi j hj
      obtain ⟨l, hl, rfl⟩ := List.mem_map.1 hi
      rcases mem_meet hl with hl | rfl
      · exact hdisjoint _ (List.mem_map_of_mem hl) _ (List.mem_cons_of_mem _ hj)
      · exact fun e => (List.nodup_cons.1 hmore).1 (e ▸ hj)

/-- A leaf in the end was not overridden by any leaf when it was met. -/
theorem not_overridden_when_met {leaves front back : List Method} {m : Method}
    (hd : ((leaves ++ (front ++ m :: back)).map identity).Nodup)
    (h : m ∈ (front ++ m :: back).foldl rule.meet leaves) :
    ∀ l ∈ front.foldl rule.meet leaves, ¬ rule.Overrides l m := by
  rw [List.foldl_append, List.foldl_cons] at h
  rcases meet_cases rule (front.foldl rule.meet leaves) m with
    ⟨_, _, _, e⟩ | ⟨hkept, _⟩
  · -- Discarded, it would have to be met a second time to become a leaf.
    rw [e] at h
    have hd : ((leaves ++ front) ++ m :: back).Nodup := by
      rw [List.append_assoc]; exact hd.of_map
    obtain ⟨_, hback, hdisjoint⟩ := List.nodup_append.1 hd
    rcases mem_foldl_meet h with h | h
    · have hmet : m ∈ leaves ++ front := List.mem_append.2 (mem_foldl_meet h)
      exact (hdisjoint m hmet m (by simp) rfl).elim
    · exact ((List.nodup_cons.1 hback).1 h).elim
  · exact hkept

/-- A leaf in the end that is not met later was a leaf all along. -/
theorem stood_of_leaf {leaves front back : List Method} {l : Method} (hback : l ∉ back)
    (h : l ∈ (front ++ back).foldl rule.meet leaves) : l ∈ front.foldl rule.meet leaves := by
  rw [List.foldl_append] at h
  exact (mem_foldl_meet h).resolve_right hback

/-! ## Chains -/

/-- A method `value` without parameters. -/
def getter (owner returns : String) (markers : List (Marker Unit)) : Method :=
  ⟨owner, ⟨"value", [], returns⟩, false, false, [], markers⟩

/-- The methods of all types of a chain. -/
def methodsOf (chain : List TypeDecl) : List Method := chain.flatMap (·.methods)

/-- The candidates of all types of a chain. -/
def candidatesOf (chain : List TypeDecl) : List Method := chain.flatMap candidates

/-- The methods of a chain are pairwise different. -/
def Distinct (chain : List TypeDecl) : Prop := ((methodsOf chain).map identity).Nodup

theorem candidatesOf_eq (chain : List TypeDecl) :
    candidatesOf chain = (methodsOf chain).filter Method.isCandidate := by
  rw [candidatesOf, methodsOf, List.filter_flatMap]; rfl

theorem mem_candidatesOf {chain : List TypeDecl} {m : Method} :
    m ∈ candidatesOf chain ↔ m ∈ methodsOf chain ∧ m.isCandidate = true := by
  rw [candidatesOf_eq, List.mem_filter]

/-- The leaves are candidates, whatever the hierarchy. -/
theorem mem_candidatesOf_of_leaf {chain : List TypeDecl} {l : Method} (h : l ∈ rule.leaves chain) :
    l ∈ candidatesOf chain := by
  cases chain with
  | nil => exact h
  | cons first rest =>
    rw [candidatesOf, List.flatMap_cons, List.mem_append]
    exact mem_foldl_meet h

theorem Distinct.candidates {chain : List TypeDecl} (h : Distinct chain) :
    ((candidatesOf chain).map identity).Nodup := by
  rw [candidatesOf_eq]
  exact h.sublist (List.filter_sublist.map _)

/-- Different methods of a chain have different identities. -/
theorem Distinct.eq_of_identity {chain : List TypeDecl} (h : Distinct chain) {a b : Method}
    (ha : a ∈ methodsOf chain) (hb : b ∈ methodsOf chain) (hid : identity a = identity b) : a = b :=
  List.inj_on_of_nodup_map h ha hb hid

theorem leavesOf_leaves (ht : rule.hierarchy.Transitive) {chain : List TypeDecl}
    (h : Distinct chain) : rule.LeavesOf (candidatesOf chain) (rule.leaves chain) := by
  have hd := h.candidates
  cases chain with
  | nil => exact leavesOf_self rule hd
  | cons first rest =>
    rw [candidatesOf, List.flatMap_cons] at hd ⊢
    refine (leavesOf_self rule ?_).foldl ht hd
    rw [List.map_append] at hd
    exact (List.nodup_append.1 hd).1

end OverrideRule

end MarkerIndex.Host
