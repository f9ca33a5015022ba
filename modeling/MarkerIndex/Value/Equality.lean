/-
Equality of values by content.

Two property sets are equal when the same names resolve in both, to equal values: neither the
layers nor the order of the names matter. Two markers are equal when their types and properties
are, whatever carries them. Scalars are equal by kind and content, numbers by their bits.
-/
import MarkerIndex.Value.Basic

namespace MarkerIndex

mutual

/-- Equal content. -/
def Value.same : Value → Value → Bool
  | .scalar a, .scalar b => a == b
  | .array a, .array b => a == b
  | .marker a, .marker b => a.type == b.type && Properties.same a.properties b.properties
  | .markers as, .markers bs =>
    as.length == bs.length && (as.attach.zip bs).all fun (⟨a, _⟩, b) =>
      a.type == b.type && Properties.same a.properties b.properties
  | _, _ => false
termination_by a => sizeOf a
decreasing_by
  · have := a.sizeOf_properties_lt
    simp; omega
  · have := a.sizeOf_properties_lt
    have := List.sizeOf_lt_of_mem ‹a ∈ as›
    simp; omega

/-- The same names resolve, to equal values. -/
def Properties.same (a b : Properties) : Bool :=
  a.size == b.size && a.resolved.attach.all fun ⟨(key, value), _⟩ =>
    match b.get? key with
    | none => false
    | some other => value.same other
termination_by sizeOf a
decreasing_by
  have := Layered.sizeOf_lt_of_mem ‹(key, value) ∈ a.resolved›
  simpa using this

end

/-- Equal type and properties. -/
def MarkerOf.same {ε δ : Type} (a : Marker ε) (b : Marker δ) : Bool :=
  a.type == b.type && Properties.same a.properties b.properties

end MarkerIndex
