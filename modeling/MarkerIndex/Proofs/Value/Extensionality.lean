/-
Equality of property sets is extensional: two sets are equal exactly when under every name nothing
resolves in both or alike values do, whatever their layers and the order of their names are. Alike
markers have one type and alike properties, whatever carries them; alike scalars are of one kind
with the same content.

Equality compares the sizes and looks for the names of one set in the other. Where no layer names
a property twice, as many names resolve as the size says, so a name of the second set that the
first one lacks would leave it larger.
-/
import MarkerIndex.Proofs.Value.Equality
import Mathlib.Data.List.Perm.Subperm

namespace MarkerIndex

/-! ## Look-ups side by side -/

section Rel

variable {α : Type} {R S : α → α → Prop} {x y x' y' : Option α}

theorem rel_imp (h : Option.Rel R x y) (himp : ∀ a b, R a b → S a b) : Option.Rel S x y := by
  cases h with
  | some hab => exact .some (himp _ _ hab)
  | none => exact .none

theorem rel_refl (h : ∀ a ∈ x, R a a) : Option.Rel R x x := by
  cases x with
  | none => exact .none
  | some a => exact .some (h a rfl)

theorem rel_or (h : Option.Rel R x y) (h' : Option.Rel R x' y') :
    Option.Rel R (x.or x') (y.or y') := by
  cases h with
  | some hab => exact .some hab
  | none => exact h'

end Rel

/-! ## Layers without repetitions -/

/-- No layer, of the value or of anything inside it, names a property twice. -/
inductive Value.Distinct : Value → Prop
  | scalar (s : Scalar) : Distinct (.scalar s)
  | array (ss : List Scalar) : Distinct (.array ss)
  | marker {m : Marker Unit} (layers : ∀ l ∈ m.properties.layers, Entries.Distinct l)
      (values : ∀ l ∈ m.properties.layers, ∀ e ∈ l, Distinct e.2) : Distinct (.marker m)
  | markers {ms : List (Marker Unit)} (each : ∀ m ∈ ms, Distinct (.marker m)) :
      Distinct (.markers ms)

/-- No layer of the set, or of anything inside it, names a property twice. -/
structure Properties.Distinct (p : Properties) : Prop where
  layers : ∀ l ∈ p.layers, Entries.Distinct l
  values : ∀ l ∈ p.layers, ∀ e ∈ l, e.2.Distinct

/-- No layer inside the marker names a property twice. -/
def MarkerOf.Distinct {ε : Type} (m : Marker ε) : Prop := Properties.Distinct m.properties

theorem Value.distinct_marker_iff {m : Marker Unit} : (Value.marker m).Distinct ↔ m.Distinct := by
  constructor
  · rintro (_ | _ | ⟨layers, values⟩)
    exact ⟨layers, values⟩
  · rintro ⟨layers, values⟩
    exact .marker layers values

namespace Properties

variable {p q : Properties}

theorem Distinct.resolved (h : Distinct p) : p.resolved.Distinct :=
  Layered.distinct_resolved h.layers

theorem Distinct.value (h : Distinct p) : ∀ e ∈ p.resolved, e.2.Distinct := by
  intro e he
  obtain ⟨l, hl, he⟩ := Layered.mem_resolveLayers he
  exact h.values l hl e he

theorem mem_resolved_of_get? {key : String} {v : Value} (h : p.get? key = some v) :
    (key, v) ∈ p.resolved := by
  rw [← Layered.get?_resolved] at h
  exact Entries.mem_of_get? h

/-! ### Operations -/

theorem distinct_of_layers {front : Entries String Value} {back : List (Entries String Value)}
    (hfront : Distinct ⟨front, []⟩) (hback : ∀ l ∈ back, Distinct ⟨l, []⟩) :
    Distinct ⟨front, back⟩ := by
  have hall : ∀ l ∈ front :: back, Distinct ⟨l, []⟩ := List.forall_mem_cons.2 ⟨hfront, hback⟩
  constructor
  · intro l hl
    exact (hall l hl).layers l (List.mem_singleton.2 rfl)
  · intro l hl
    exact (hall l hl).values l (List.mem_singleton.2 rfl)

theorem Distinct.layer (h : Distinct p) {l : Entries String Value} (hl : l ∈ p.layers) :
    Distinct ⟨l, []⟩ := by
  constructor
  · intro k hk
    rw [List.mem_singleton.1 hk]
    exact h.layers l hl
  · intro k hk
    rw [List.mem_singleton.1 hk]
    exact h.values l hl

theorem distinct_empty : Distinct .empty := by
  constructor
  · intro l hl
    rw [List.mem_singleton.1 hl]
    exact List.nodup_nil
  · intro l hl e he
    rw [List.mem_singleton.1 hl] at he
    cases he

theorem Distinct.orphan (h : Distinct p) : Distinct p.orphan := h.layer List.mem_cons_self

theorem Distinct.insert (h : Distinct p) (key : String) {v : Value} (hv : v.Distinct) :
    Distinct (p.insert key v) := by
  refine distinct_of_layers ⟨?_, ?_⟩ fun l hl => h.layer (List.mem_cons_of_mem _ hl)
  · intro l hl
    rw [List.mem_singleton.1 hl]
    exact (h.orphan.layers _ (List.mem_singleton.2 rfl)).insert key v
  · intro l hl
    rw [List.mem_singleton.1 hl]
    exact Entries.forall_insert (h.orphan.values _ (List.mem_singleton.2 rfl)) hv

theorem Distinct.withParent (h : Distinct p) : Distinct p.withParent :=
  distinct_of_layers distinct_empty fun _ hl => h.layer hl

theorem Distinct.flatten (h : Distinct p) : Distinct p.flatten := by
  constructor
  · intro l hl
    rw [List.mem_singleton.1 hl]
    exact h.resolved
  · intro l hl
    rw [List.mem_singleton.1 hl]
    exact h.value

theorem Distinct.shadowing (h : Distinct p) (hq : Distinct q) : Distinct (p.shadowing q) :=
  distinct_of_layers h.flatten fun _ hl => hq.layer hl

end Properties

/-! ## Alike values -/

/-- Values of one content. Scalars are of one kind with the same content, numbers with the same
bits; markers have one type, and under every name nothing resolves in both or alike values do. -/
inductive Value.Alike : Value → Value → Prop
  | scalar (s : Scalar) : Alike (.scalar s) (.scalar s)
  | array (ss : List Scalar) : Alike (.array ss) (.array ss)
  | marker {a b : Marker Unit} (type : a.type = b.type)
      (absent : ∀ key, a.properties.get? key = none ↔ b.properties.get? key = none)
      (values : ∀ key v w, a.properties.get? key = some v → b.properties.get? key = some w →
        Alike v w) : Alike (.marker a) (.marker b)
  | markers {as bs : List (Marker Unit)} (length : as.length = bs.length)
      (each : ∀ (i : Nat) (a b : Marker Unit), as[i]? = some a → bs[i]? = some b →
        Alike (.marker a) (.marker b)) : Alike (.markers as) (.markers bs)

/-- Under every name nothing resolves in both sets, or alike values do. -/
def Properties.Alike (p q : Properties) : Prop :=
  ∀ key, Option.Rel Value.Alike (p.get? key) (q.get? key)

/-- Markers of one type with alike properties, whatever carries them. -/
def MarkerOf.Alike {ε δ : Type} (a : Marker ε) (b : Marker δ) : Prop :=
  a.type = b.type ∧ Properties.Alike a.properties b.properties

theorem Properties.alike_iff {p q : Properties} : Properties.Alike p q ↔
    (∀ key, p.get? key = none ↔ q.get? key = none) ∧
      ∀ key v w, p.get? key = some v → q.get? key = some w → v.Alike w := by
  constructor
  · intro h
    constructor
    · intro key
      have hkey := h key
      generalize p.get? key = u at *
      generalize q.get? key = w at *
      cases hkey <;> simp
    · intro key v w hv hw
      have hkey := h key
      rw [hv, hw] at hkey
      cases hkey
      assumption
  · rintro ⟨absent, values⟩ key
    rcases hv : p.get? key with _ | v
    · rw [(absent key).1 hv]; exact .none
    · rcases hw : q.get? key with _ | w
      · rw [(absent key).2 hw] at hv; cases hv
      · exact .some (values key v w hv hw)

theorem Value.alike_marker_iff {a b : Marker Unit} :
    (marker a).Alike (.marker b) ↔ a.Alike b := by
  rw [MarkerOf.Alike, Properties.alike_iff]
  constructor
  · rintro (_ | _ | ⟨type, absent, values⟩)
    exact ⟨type, absent, values⟩
  · rintro ⟨type, absent, values⟩
    exact .marker type absent values

/-! ### An equivalence -/

namespace Value.Alike

theorem refl (v : Value) : v.Alike v := by
  match v with
  | .scalar s => exact .scalar s
  | .array ss => exact .array ss
  | .marker m =>
    refine .marker rfl (fun _ => Iff.rfl) fun key v w hv hw => ?_
    have hmem := Properties.mem_resolved_of_get? hv
    rw [hv] at hw
    cases hw
    exact refl v
  | .markers ms =>
    refine .markers rfl fun i a b ha hb => ?_
    have hmem := List.mem_of_getElem? ha
    rw [ha] at hb
    cases hb
    exact refl (.marker a)
termination_by sizeOf v
decreasing_by
  · have := Layered.sizeOf_lt_of_mem hmem
    have := m.sizeOf_properties_lt
    simp at *; omega
  · have := List.sizeOf_lt_of_mem hmem
    simp; omega

theorem symm {v w : Value} (h : v.Alike w) : w.Alike v := by
  induction h with
  | scalar s => exact .scalar s
  | array ss => exact .array ss
  | marker type absent _ ih =>
    exact .marker type.symm (fun key => (absent key).symm) fun key v w hv hw => ih key w v hw hv
  | markers length _ ih => exact .markers length.symm fun i a b ha hb => ih i b a hb ha

theorem trans {u v w : Value} (h : u.Alike v) (h' : v.Alike w) : u.Alike w := by
  induction h generalizing w with
  | scalar | array => exact h'
  | @marker a b type absent _ ih =>
    obtain _ | _ | ⟨type', absent', values'⟩ := h'
    refine .marker (type.trans type') (fun key => (absent key).trans (absent' key)) ?_
    intro key u w hu hw
    -- What resolves in the outer sets resolves in the one between them.
    rcases hv : b.properties.get? key with _ | v
    · rw [(absent key).2 hv] at hu; cases hu
    · exact ih key u v hu hv (values' key v w hv hw)
  | @markers as bs length _ ih =>
    obtain _ | _ | _ | ⟨length', each'⟩ := h'
    refine .markers (length.trans length') fun i a c ha hc => ?_
    have hi : i < bs.length := by
      rw [← length]
      exact (List.getElem?_eq_some_iff.1 ha).1
    exact ih i a bs[i] ha (List.getElem?_eq_getElem hi)
      (each' i bs[i] c (List.getElem?_eq_getElem hi) hc)

end Value.Alike

namespace Properties

theorem Alike.refl (p : Properties) : Alike p p := by
  rw [alike_iff]
  constructor
  · exact fun _ => Iff.rfl
  · intro key v w hv hw
    rw [hv] at hw
    cases hw
    exact .refl v

theorem Alike.symm {p q : Properties} (h : Alike p q) : Alike q p := by
  rw [alike_iff] at *
  exact ⟨fun key => (h.1 key).symm, fun key v w hv hw => (h.2 key w v hw hv).symm⟩

theorem Alike.trans {p q r : Properties} (h : Alike p q) (h' : Alike q r) : Alike p r := by
  rw [alike_iff] at *
  constructor
  · exact fun key => (h.1 key).trans (h'.1 key)
  · intro key u w hu hw
    rcases hv : q.get? key with _ | v
    · rw [(h.1 key).2 hv] at hu; cases hu
    · exact (h.2 key u v hu hv).trans (h'.2 key v w hv hw)

end Properties

namespace MarkerOf.Alike

variable {ε δ ζ : Type} {a : Marker ε} {b : Marker δ} {c : Marker ζ}

theorem refl (a : Marker ε) : a.Alike a := ⟨rfl, .refl _⟩

theorem symm (h : a.Alike b) : b.Alike a := ⟨h.1.symm, h.2.symm⟩

theorem trans (h : a.Alike b) (h' : b.Alike c) : a.Alike c := ⟨h.1.trans h'.1, h.2.trans h'.2⟩

end MarkerOf.Alike

/-! ## Equality decides alikeness -/

namespace Properties

variable {p q : Properties}

/-- In sets in which the same names resolve, they resolve in another order. -/
theorem keys_perm (hp : p.resolved.Distinct) (hq : q.resolved.Distinct)
    (h : ∀ key, p.get? key = none ↔ q.get? key = none) : p.keys.Perm q.keys := by
  refine (List.perm_ext_iff_of_nodup hp hq).2 fun key => ?_
  show key ∈ p.keys ↔ key ∈ q.keys
  rw [← Layered.contains_iff_mem_keys, ← Layered.contains_iff_mem_keys, Layered.contains,
    Layered.contains, Option.isSome_iff_ne_none, Option.isSome_iff_ne_none]
  exact not_congr (h key)

/-- As many names resolve in both sets, so if all names of the first one resolve in the second, all
of the second resolve in the first. -/
theorem absent_of_size (hp : p.resolved.Distinct) (hsize : p.size = q.size)
    (h : ∀ e ∈ p.resolved, q.get? e.1 ≠ none) (key : String) :
    p.get? key = none ↔ q.get? key = none := by
  have hsub : p.keys ⊆ q.keys := by
    intro key hkey
    obtain ⟨e, he, rfl⟩ := List.mem_map.1 hkey
    exact Layered.contains_iff_mem_keys.1 (Option.isSome_iff_ne_none.2 (h e he))
  have hlength : q.keys.length ≤ p.keys.length := by
    simp only [Layered.keys, Entries.keys, List.length_map]
    exact Nat.le_of_eq hsize.symm
  have hperm : p.keys.Perm q.keys := (List.subperm_of_subset hp hsub).perm_of_length_le hlength
  have hkey := not_congr (hperm.mem_iff (a := key))
  rw [← Layered.contains_iff_mem_keys, ← Layered.contains_iff_mem_keys] at hkey
  simpa [Layered.contains] using hkey

/-- Equality of sets is alikeness if it is for their values. -/
theorem same_iff_alike_of (hp : p.resolved.Distinct) (hq : q.resolved.Distinct)
    (h : ∀ e ∈ p.resolved, ∀ w, q.get? e.1 = some w → (e.2.same w = true ↔ e.2.Alike w)) :
    Properties.same p q = true ↔ Properties.Alike p q := by
  rw [same_iff, alike_iff]
  constructor
  · rintro ⟨hsize, hvalues⟩
    constructor
    · refine absent_of_size hp hsize fun e he => ?_
      obtain ⟨w, hw, -⟩ := hvalues e he
      simp [hw]
    · intro key v w hv hw
      obtain ⟨w', hw', hsame⟩ := hvalues _ (mem_resolved_of_get? hv)
      rw [hw] at hw'
      cases hw'
      exact (h _ (mem_resolved_of_get? hv) w hw).1 hsame
  · rintro ⟨absent, values⟩
    constructor
    · have hlength := (keys_perm hp hq absent).length_eq
      simp only [Layered.keys, Entries.keys, List.length_map] at hlength
      exact hlength
    · intro e he
      have hv : p.get? e.1 = some e.2 := by
        rw [← Layered.get?_resolved]
        exact Entries.get?_of_mem hp he
      rcases hw : q.get? e.1 with _ | w
      · rw [(absent e.1).2 hw] at hv; cases hv
      · exact ⟨w, rfl, (h e he w hw).2 (values e.1 e.2 w hv hw)⟩

end Properties

theorem Value.Distinct.same_iff_alike {v : Value} (hv : v.Distinct) :
    ∀ w : Value, w.Distinct → (v.same w = true ↔ v.Alike w) := by
  -- On what makes `v` distinct, so that the values of its layers are at hand.
  induction hv with
  | scalar s =>
    intro w _
    constructor
    · intro h
      cases w with
      | scalar t => rw [same_scalar, beq_iff_eq] at h; subst h; exact .scalar s
      | _ => simp [same] at h
    · rintro ⟨⟩
      rw [same_scalar, beq_iff_eq]
  | array ss =>
    intro w _
    constructor
    · intro h
      cases w with
      | array ts => rw [same_array, beq_iff_eq] at h; subst h; exact .array ss
      | _ => simp [same] at h
    · rintro ⟨⟩
      rw [same_array, beq_iff_eq]
  | @marker m layers _ ih =>
    intro w hw
    cases w with
    | marker n =>
      have hn := distinct_marker_iff.1 hw
      rw [same_marker, MarkerOf.same_iff, alike_marker_iff, MarkerOf.Alike]
      refine and_congr_right fun _ => Properties.same_iff_alike_of
        (Layered.distinct_resolved layers) hn.resolved fun e he w hw => ?_
      obtain ⟨l, hl, he⟩ := Layered.mem_resolveLayers he
      exact ih l hl e he w (hn.value _ (Properties.mem_resolved_of_get? hw))
    | _ =>
      constructor
      · intro h; simp [same] at h
      · intro h; cases h
  | @markers ms _ ih =>
    intro w hw
    cases w with
    | markers ns =>
      obtain _ | _ | _ | ⟨hns⟩ := hw
      rw [same_markers, List.forall₂_iff_get]
      constructor
      · rintro ⟨length, each⟩
        refine .markers length fun i a b ha hb => ?_
        obtain ⟨hi, rfl⟩ := List.getElem?_eq_some_iff.1 ha
        obtain ⟨hi', rfl⟩ := List.getElem?_eq_some_iff.1 hb
        refine (ih _ (List.getElem_mem hi) _ (hns _ (List.getElem_mem hi'))).1 ?_
        rw [same_marker]
        exact each i hi hi'
      · rintro (_ | _ | _ | ⟨length, each⟩)
        refine ⟨length, fun i hi hi' => ?_⟩
        have halike := each i _ _ (List.getElem?_eq_getElem hi) (List.getElem?_eq_getElem hi')
        have hsame := (ih _ (List.getElem_mem hi) _ (hns _ (List.getElem_mem hi'))).2 halike
        rw [same_marker] at hsame
        exact hsame
    | _ =>
      constructor
      · intro h; simp [same] at h
      · intro h; cases h

theorem Properties.Distinct.same_iff_alike {p q : Properties} (hp : Properties.Distinct p)
    (hq : Properties.Distinct q) : Properties.same p q = true ↔ Properties.Alike p q :=
  same_iff_alike_of hp.resolved hq.resolved fun e he w hw =>
    (hp.value e he).same_iff_alike w (hq.value _ (mem_resolved_of_get? hw))

theorem MarkerOf.Distinct.same_iff_alike {ε δ : Type} {a : Marker ε} {b : Marker δ}
    (ha : a.Distinct) (hb : b.Distinct) : a.same b = true ↔ a.Alike b := by
  rw [MarkerOf.same_iff, MarkerOf.Alike, Properties.Distinct.same_iff_alike ha hb]

end MarkerIndex
