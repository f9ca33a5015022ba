/-
Fingerprints agree with equality. Whatever the entries of property sets are hashed by, alike values
are fed to a hash as the same tokens: alike sets have the same names in another order, each with an
alike value, and the sum over the entries does not depend on the order. So on values that name no
property twice in a layer, equality is alikeness, an equivalence, and seen by no fingerprint.
-/
import MarkerIndex.Proofs.Value.Extensionality
import MarkerIndex.Value.Fingerprint

namespace MarkerIndex

variable (hash : List Token → UInt64)

/-! ## Tokens without membership -/

namespace Value

theorem tokens_marker (m : Marker Unit) : (marker m).tokens hash = .tag 2 :: m.tokens hash := by
  rw [tokens]; rfl

theorem tokens_markers (ms : List (Marker Unit)) : (markers ms).tokens hash =
    .tag 3 :: .count ms.length :: ms.flatMap (MarkerOf.tokens hash) := by
  rw [tokens, List.flatMap_subtype (g := MarkerOf.tokens hash) fun _ _ => rfl,
    List.unattach_attach]

end Value

namespace Properties

/-- The hash of an entry. -/
def entryHash (e : String × Value) : UInt64 := hash (.text e.1 :: e.2.tokens hash)

theorem tokens_eq (p : Properties) : Properties.tokens hash p =
    [.count p.size, .word ((p.resolved.map (entryHash hash)).foldr (· + ·) 0)] := by
  rw [tokens, List.foldr_map, List.foldr_subtype (g := fun e total => entryHash hash e + total)
    fun _ _ _ => rfl, List.unattach_attach]

/-- The hash of the entry under a name. -/
def hashUnder (p : Properties) (key : String) : UInt64 :=
  ((p.get? key).map fun v => entryHash hash (key, v)).getD 0

theorem map_entryHash {p : Properties} (hp : p.resolved.Distinct) :
    p.resolved.map (entryHash hash) = p.keys.map (hashUnder hash p) := by
  rw [Layered.keys, Entries.keys, List.map_map]
  refine List.map_congr_left fun e he => ?_
  have hget := Entries.get?_of_mem hp he
  rw [Layered.get?_resolved] at hget
  simp [hashUnder, hget]

theorem foldr_add_perm {xs ys : List UInt64} (h : xs.Perm ys) :
    xs.foldr (· + ·) 0 = ys.foldr (· + ·) 0 := by
  have : LeftCommutative fun x y : UInt64 => x + y := by
    constructor
    intro a b c
    rw [← UInt64.add_assoc, UInt64.add_comm a b, UInt64.add_assoc]
  exact h.foldr_eq 0

/-- Sets in which the same names resolve are fed to a hash alike if their values are. -/
theorem tokens_congr {p q : Properties} (hp : p.resolved.Distinct) (hq : q.resolved.Distinct)
    (absent : ∀ key, p.get? key = none ↔ q.get? key = none)
    (values : ∀ key v w, p.get? key = some v → q.get? key = some w →
      v.tokens hash = w.tokens hash) : Properties.tokens hash p = Properties.tokens hash q := by
  have hkeys := keys_perm hp hq absent
  have hsize : p.size = q.size := by
    have hlength := hkeys.length_eq
    simp only [Layered.keys, Entries.keys, List.length_map] at hlength
    exact hlength
  have hunder : hashUnder hash p = hashUnder hash q := by
    funext key
    unfold hashUnder
    rcases hv : p.get? key with _ | v
    · rw [(absent key).1 hv]
    · rcases hw : q.get? key with _ | w
      · rw [(absent key).2 hw] at hv; cases hv
      · simp [entryHash, values key v w hv hw]
  rw [tokens_eq, tokens_eq, map_entryHash hash hp, map_entryHash hash hq, hsize, hunder,
    foldr_add_perm (hkeys.map _)]

end Properties

/-! ## Alike things have one fingerprint -/

theorem Value.Alike.tokens {v w : Value} (h : v.Alike w) (hv : v.Distinct) (hw : w.Distinct) :
    v.tokens hash = w.tokens hash := by
  induction h with
  | scalar | array => rfl
  | @marker a b type absent _ ih =>
    have ha := distinct_marker_iff.1 hv
    have hb := distinct_marker_iff.1 hw
    rw [tokens_marker, tokens_marker, MarkerOf.tokens, MarkerOf.tokens, type]
    congr 2
    refine Properties.tokens_congr hash ha.resolved hb.resolved absent fun key v w hv hw => ?_
    exact ih key v w hv hw (ha.value _ (Properties.mem_resolved_of_get? hv))
      (hb.value _ (Properties.mem_resolved_of_get? hw))
  | @markers as bs length _ ih =>
    obtain _ | _ | _ | ⟨has⟩ := hv
    obtain _ | _ | _ | ⟨hbs⟩ := hw
    have heach : as.map (MarkerOf.tokens hash) = bs.map (MarkerOf.tokens hash) := by
      refine List.ext_getElem (by simpa using length) fun i hi hi' => ?_
      rw [List.length_map] at hi hi'
      have htokens := ih i _ _ (List.getElem?_eq_getElem hi) (List.getElem?_eq_getElem hi')
        (has _ (List.getElem_mem hi)) (hbs _ (List.getElem_mem hi'))
      rw [tokens_marker, tokens_marker] at htokens
      simpa using (List.cons.inj htokens).2
    rw [tokens_markers, tokens_markers, length, List.flatMap_def, List.flatMap_def, heach]

theorem Properties.Alike.tokens {p q : Properties} (h : Properties.Alike p q)
    (hp : Properties.Distinct p) (hq : Properties.Distinct q) :
    Properties.tokens hash p = Properties.tokens hash q := by
  obtain ⟨absent, values⟩ := alike_iff.1 h
  refine tokens_congr hash hp.resolved hq.resolved absent fun key v w hv hw => ?_
  exact (values key v w hv hw).tokens hash (hp.value _ (mem_resolved_of_get? hv))
    (hq.value _ (mem_resolved_of_get? hw))

theorem MarkerOf.Alike.tokens {ε δ : Type} {a : Marker ε} {b : Marker δ} (h : a.Alike b)
    (ha : a.Distinct) (hb : b.Distinct) : a.tokens hash = b.tokens hash := by
  obtain ⟨type, properties⟩ := h
  rw [MarkerOf.tokens, MarkerOf.tokens, type, properties.tokens hash ha hb]

/-! ## Equality -/

/-- On things that are distinct inside, `same` decides `alike`, is an equivalence, and implies one
fingerprint, whatever the entries are hashed by. -/
structure Extensional {α : Type} (distinct : α → Prop) (same : α → α → Bool)
    (alike : α → α → Prop) (tokens : (List Token → UInt64) → α → List Token) : Prop where
  same_iff : ∀ a b, distinct a → distinct b → (same a b = true ↔ alike a b)
  equivalence : Equivalence fun a b : { a // distinct a } => same a.1 b.1 = true
  tokens_eq : ∀ hash a b, distinct a → distinct b → same a b = true → tokens hash a = tokens hash b

/-- Equality is all of this if it decides an equivalence that fingerprints do not see. -/
theorem Extensional.of_alike {α : Type} {distinct : α → Prop} {same : α → α → Bool}
    {alike : α → α → Prop} {tokens : (List Token → UInt64) → α → List Token}
    (same_iff : ∀ a b, distinct a → distinct b → (same a b = true ↔ alike a b))
    (alike_equivalence : Equivalence alike)
    (tokens_eq : ∀ hash a b, distinct a → distinct b → alike a b → tokens hash a = tokens hash b) :
    Extensional distinct same alike tokens where
  same_iff := same_iff
  equivalence := by
    constructor
    · rintro ⟨a, ha⟩
      exact (same_iff a a ha ha).2 (alike_equivalence.refl a)
    · rintro ⟨a, ha⟩ ⟨b, hb⟩ h
      exact (same_iff b a hb ha).2 (alike_equivalence.symm ((same_iff a b ha hb).1 h))
    · rintro ⟨a, ha⟩ ⟨b, hb⟩ ⟨c, hc⟩ hab hbc
      exact (same_iff a c ha hc).2
        (alike_equivalence.trans ((same_iff a b ha hb).1 hab) ((same_iff b c hb hc).1 hbc))
  tokens_eq hash a b ha hb h := tokens_eq hash a b ha hb ((same_iff a b ha hb).1 h)

/-- Equality of property sets, of values and of markers is extensional: sets are equal when under
every name nothing resolves in both or equal values do, markers when their types and properties are,
whatever carries them. -/
theorem same_extensional :
    Extensional Properties.Distinct Properties.same Properties.Alike Properties.tokens ∧
      Extensional Value.Distinct Value.same Value.Alike Value.tokens ∧
      ∀ ε : Type, Extensional (fun m : Marker ε => m.Distinct) MarkerOf.same MarkerOf.Alike
        MarkerOf.tokens := by
  refine ⟨?_, ?_, fun ε => ?_⟩
  · refine .of_alike (fun p q hp hq => hp.same_iff_alike hq) ?_ fun hash p q hp hq h => ?_
    · exact ⟨Properties.Alike.refl, Properties.Alike.symm, Properties.Alike.trans⟩
    · exact h.tokens hash hp hq
  · refine .of_alike (fun v w hv hw => hv.same_iff_alike w hw) ?_ fun hash v w hv hw h => ?_
    · exact ⟨Value.Alike.refl, Value.Alike.symm, Value.Alike.trans⟩
    · exact h.tokens hash hv hw
  · refine .of_alike (fun a b ha hb => ha.same_iff_alike hb) ?_ fun hash a b ha hb h => ?_
    · exact ⟨MarkerOf.Alike.refl, MarkerOf.Alike.symm, MarkerOf.Alike.trans⟩
    · exact h.tokens hash ha hb

/-! ### A set in one layer and in two -/

/-- A marker with a number under `x`. -/
def sampleMarker : Marker Unit := ⟨"T", Layered.empty.insert "x" (.scalar (.int 1)), none⟩

/-- The same marker with its number in the layer below. -/
def loweredMarker : Marker Unit := ⟨"T", sampleMarker.properties.withParent, none⟩

def flatSample : Properties :=
  (Layered.empty.insert "b" (.scalar (.int 2))).insert "a" (.marker sampleMarker)

/-- The names in another order and on two layers, with a value of `a` that does not resolve. -/
def layeredSample : Properties :=
  (Layered.empty.insert "a" (.marker loweredMarker)).shadowing
    ((Layered.empty.insert "a" (.scalar (.bool true))).insert "b" (.scalar (.int 2)))

theorem same_extensional_samples : Properties.Distinct flatSample ∧
    Properties.Distinct layeredSample ∧ Properties.Alike flatSample layeredSample ∧
      ∀ hash, Properties.tokens hash flatSample = Properties.tokens hash layeredSample := by
  have hmarker : Properties.Distinct sampleMarker.properties :=
    Properties.distinct_empty.insert "x" (.scalar _)
  have hflat : Properties.Distinct flatSample :=
    (Properties.distinct_empty.insert "b" (.scalar _)).insert "a"
      (Value.distinct_marker_iff.2 hmarker)
  have hlayered : Properties.Distinct layeredSample := by
    refine (Properties.distinct_empty.insert "a" ?_).shadowing
      ((Properties.distinct_empty.insert "a" (.scalar _)).insert "b" (.scalar _))
    exact Value.distinct_marker_iff.2 hmarker.withParent
  have hsame : Properties.same flatSample layeredSample = true := by
    have hx : Properties.same sampleMarker.properties loweredMarker.properties = true := by
      rw [Properties.same_iff]
      refine ⟨by decide, fun e he => ?_⟩
      obtain rfl := List.mem_singleton.1 (show e ∈ [("x", Value.scalar (.int 1))] from he)
      exact ⟨.scalar (.int 1), rfl, Value.same_scalar.trans (beq_self_eq_true _)⟩
    have ha : sampleMarker.same loweredMarker = true := MarkerOf.same_iff.2 ⟨rfl, hx⟩
    rw [Properties.same_iff]
    refine ⟨by decide, ?_⟩
    show ∀ e ∈ [("b", Value.scalar (.int 2)), ("a", .marker sampleMarker)], _
    simp only [List.forall_mem_cons, List.not_mem_nil, IsEmpty.forall_iff, implies_true, and_true]
    constructor
    · exact ⟨.scalar (.int 2), rfl, Value.same_scalar.trans (beq_self_eq_true _)⟩
    · exact ⟨.marker loweredMarker, rfl, Value.same_marker.trans ha⟩
  exact ⟨hflat, hlayered, (same_extensional.1.same_iff _ _ hflat hlayered).1 hsame,
    fun hash => same_extensional.1.tokens_eq hash _ _ hflat hlayered hsame⟩

end MarkerIndex
