/-
The algebra of shadowing. What resolves in one dictionary over another is what resolves in the first
and then what is left of the second, so shadowing is associative, with the empty dictionary on either
side, up to the layers: of three dictionaries it does not matter which two are put together first,
although one way makes two layers and the other three.

Property sets that are equal stay equal under every operation that derives a set from them: look-up
in the derived set is look-up in the given ones, and equality is alikeness of look-up.
-/
import MarkerIndex.Proofs.Layered.Listing
import MarkerIndex.Proofs.Value.Extensionality

namespace MarkerIndex

/-! ## What resolves -/

namespace Layered

variable {β : Type} (a b c : Layered β)

theorem resolved_shadowing : (a.shadowing b).resolved = layerOver a.resolved b.resolved := rfl

theorem resolved_empty : (empty : Layered β).resolved = [] := rfl

theorem resolved_flatten : a.flatten.resolved = a.resolved := layerOver_nil a.resolved

theorem shadowing_assoc :
    ((a.shadowing b).shadowing c).resolved = (a.shadowing (b.shadowing c)).resolved := by
  rw [resolved_shadowing, resolved_shadowing, resolved_shadowing, resolved_shadowing,
    layerOver_assoc]

theorem empty_shadowing : (empty.shadowing a).resolved = a.resolved := by
  rw [resolved_shadowing, resolved_empty, nil_layerOver]

theorem shadowing_empty : (a.shadowing empty).resolved = a.resolved := by
  rw [resolved_shadowing, resolved_empty, layerOver_nil]

end Layered

/-! ## Equal sets -/

namespace Properties

variable {a b c d : Properties}

theorem Alike.shadowing (h : Alike a b) (h' : Alike c d) :
    Alike (Layered.shadowing a c) (Layered.shadowing b d) := by
  intro key
  rw [Layered.get?_shadowing, Layered.get?_shadowing]
  exact rel_or (h key) (h' key)

theorem Alike.insert (h : Alike a b) (key : String) (v : Value) :
    Alike (Layered.insert a key v) (Layered.insert b key v) := by
  intro name
  rw [Layered.get?_insert, Layered.get?_insert]
  split
  · exact .some (.refl v)
  · exact h name

/-- Equal sets stay equal when the same is done to both. -/
structure Congruent (a b : Properties) : Prop where
  front : ∀ c, Distinct c → same (Layered.shadowing a c) (Layered.shadowing b c) = true
  back : ∀ c, Distinct c → same (Layered.shadowing c a) (Layered.shadowing c b) = true
  withParent : same (Layered.withParent a) (Layered.withParent b) = true
  insert : ∀ key v, v.Distinct → same (Layered.insert a key v) (Layered.insert b key v) = true

theorem congruent_of_same (ha : Distinct a) (hb : Distinct b) (h : same a b = true) :
    Congruent a b := by
  have halike : Alike a b := (ha.same_iff_alike hb).1 h
  constructor
  · intro c hc
    exact ((ha.shadowing hc).same_iff_alike (hb.shadowing hc)).2 (halike.shadowing (.refl c))
  · intro c hc
    exact ((hc.shadowing ha).same_iff_alike (hc.shadowing hb)).2 ((Alike.refl c).shadowing halike)
  · exact (ha.withParent.same_iff_alike hb.withParent).2 halike
  · intro key v hv
    exact ((ha.insert key hv).same_iff_alike (hb.insert key hv)).2 (halike.insert key v)

/-- The laws of shadowing: what resolves in one set over another, in which order; that shadowing is
associative and the empty set does nothing on either side; that flattening changes nothing that
resolves; and that equal sets stay equal. -/
theorem shadowing_laws (a b c : Properties) :
    (∀ key, (a.shadowing b).get? key = (a.get? key).or (b.get? key)) ∧
    (a.shadowing b).resolved = a.resolved ++ b.resolved.filter (fun e => !a.contains e.1) ∧
    ((a.shadowing b).shadowing c).resolved = (a.shadowing (b.shadowing c)).resolved ∧
    (Layered.empty.shadowing a).resolved = a.resolved ∧
    (a.shadowing .empty).resolved = a.resolved ∧
    a.flatten.resolved = a.resolved ∧
    (Distinct a → Distinct b → same a b = true → Congruent a b) := by
  refine ⟨a.get?_shadowing b, ?_, a.shadowing_assoc b c, a.empty_shadowing, a.shadowing_empty,
    a.resolved_flatten, congruent_of_same⟩
  rw [Layered.resolved_shadowing, Layered.layerOver]
  refine congrArg _ (List.filter_congr fun e _ => ?_)
  rw [Entries.has, Layered.get?_resolved, Layered.contains]

/-- Two names in one layer. -/
def flatPair : Properties :=
  (Layered.empty.insert "x" (.scalar (.int 1))).insert "y" (.scalar (.bool true))

/-- The same names in two layers, one of them in both. -/
def stackedPair : Properties :=
  (Layered.empty.insert "y" (.scalar (.bool true))).shadowing
    ((Layered.empty.insert "y" (.array [])).insert "x" (.scalar (.int 1)))

/-- A third value under the name that is in both layers. -/
theorem shadowing_laws_stackedPair : same flatPair stackedPair = true ∧
    same (flatPair.insert "y" (.array [])) (stackedPair.insert "y" (.array [])) = true ∧
    same (flatPair.shadowing stackedPair) (stackedPair.shadowing stackedPair) = true := by
  have hflat : Distinct flatPair := (distinct_empty.insert "x" (.scalar _)).insert "y" (.scalar _)
  have hstacked : Distinct stackedPair := by
    refine (distinct_empty.insert "y" (.scalar _)).shadowing ?_
    exact (distinct_empty.insert "y" (.array _)).insert "x" (.scalar _)
  have hsame : same flatPair stackedPair = true := by
    refine same_iff.2 ⟨by decide, ?_⟩
    show ∀ e ∈ [("x", Value.scalar (.int 1)), ("y", .scalar (.bool true))], _
    simp only [List.forall_mem_cons, List.not_mem_nil, IsEmpty.forall_iff, implies_true, and_true]
    constructor
    · exact ⟨.scalar (.int 1), rfl, Value.same_scalar.trans (beq_self_eq_true _)⟩
    · exact ⟨.scalar (.bool true), rfl, Value.same_scalar.trans (beq_self_eq_true _)⟩
  obtain ⟨-, -, -, -, -, -, hcongruent⟩ := shadowing_laws flatPair stackedPair .empty
  have hequal := hcongruent hflat hstacked hsame
  exact ⟨hsame, hequal.insert "y" _ (.array _), hequal.front stackedPair hstacked⟩

end Properties

end MarkerIndex
