/-
Equality of values by content, opened up: markers are the same when their types are and their
properties are, lists of markers when they are the same one by one, and property sets when as many
names resolve in both and every name that resolves in one resolves in the other to the same value.
-/
import MarkerIndex.Value.Equality
import Mathlib.Data.List.Forall2

namespace MarkerIndex

theorem Properties.same_iff {a b : Properties} :
    Properties.same a b = true ↔ a.size = b.size ∧
      ∀ e ∈ a.resolved, ∃ other, b.get? e.1 = some other ∧ e.2.same other = true := by
  rw [Properties.same, Bool.and_eq_true, beq_iff_eq, List.all_eq_true]
  refine and_congr_right fun _ => ⟨fun h e he => ?_, fun h p _ => ?_⟩
  · have := h ⟨e, he⟩ (List.mem_attach _ _)
    dsimp only at this
    cases hb : b.get? e.1 with
    | none => rw [hb] at this; cases this
    | some other => rw [hb] at this; exact ⟨other, rfl, this⟩
  · obtain ⟨other, hb, hs⟩ := h p.1 p.2
    dsimp only
    rw [hb]; exact hs

theorem MarkerOf.same_iff {ε δ : Type} {a : Marker ε} {b : Marker δ} :
    a.same b = true ↔ a.type = b.type ∧ Properties.same a.properties b.properties = true := by
  rw [MarkerOf.same, Bool.and_eq_true, beq_iff_eq]

namespace Value

@[simp] theorem same_scalar {a b : Scalar} : (scalar a).same (.scalar b) = (a == b) := by
  rw [same]

@[simp] theorem same_array {a b : List Scalar} : (array a).same (.array b) = (a == b) := by
  rw [same]

@[simp] theorem same_marker {a b : Marker Unit} : (marker a).same (.marker b) = a.same b := by
  rw [same]; rfl

theorem same_markers {as bs : List (Marker Unit)} :
    (markers as).same (.markers bs) = true ↔
      List.Forall₂ (fun a b => a.same b = true) as bs := by
  have plain : as.zip bs = (as.attach.zip bs).map (Prod.map (·.1) id) := by
    rw [← List.zip_map_left, List.attach_map_subtype_val]
  rw [same, Bool.and_eq_true, beq_iff_eq, List.all_eq_true, List.forall₂_iff_zip, plain]
  refine and_congr_right fun _ => ⟨fun h a b hab => ?_, fun h p hp => ?_⟩
  · obtain ⟨p, hp, e⟩ := List.mem_map.1 hab
    cases e
    exact h p hp
  · exact h (List.mem_map.2 ⟨p, hp, rfl⟩)

end Value

end MarkerIndex
