/-
Characters in values. A character is written as one number, and read back only if the number is one
unit of 16 bits; every other scalar is read back whatever it holds. So the bytes of a value whose
type names are those of their descriptors are accepted exactly if all characters inside it are
narrow. The statement about values is by induction on what makes a value fit, side by side with the
one about portable values: a fitting value is portable exactly if it is narrow.
-/
import MarkerIndex.Proofs.Bytes.Cuts
import MarkerIndex.Proofs.ClassFile.Demands
import MarkerIndex.Proofs.ClassFile.Values

namespace MarkerIndex

open ClassFile (Descriptor.Stable)

/-! ## Fitting and narrow values -/

namespace Value

/-- The value is well-formed, all types in it are named as their descriptors name them, and it opens
at most `n` markers and arrays at once; its scalars may be any. -/
inductive Fitting : Nat → Value → Prop where
  | scalar {n : Nat} {s : Scalar} (named : s.Named) : Fitting n (.scalar s)
  | array {n : Nat} {ss : List Scalar} (named : ∀ s ∈ ss, s.Named) : Fitting (n + 1) (.array ss)
  | marker {n : Nat} {m : Marker Unit} (wellFormed : m.WellFormed)
      (stable : Descriptor.Stable m.type)
      (fitting : ∀ e ∈ m.properties.resolved, Fitting n e.2) : Fitting (n + 1) (.marker m)
  | markers {n : Nat} {ms : List (Marker Unit)} (fitting : ∀ m ∈ ms, Fitting n (.marker m)) :
      Fitting (n + 1) (.markers ms)

/-- Every character inside the value is one unit of 16 bits. -/
inductive Narrow : Value → Prop where
  | scalar {s : Scalar} (narrow : s.Narrow) : Narrow (.scalar s)
  | array {ss : List Scalar} (narrow : ∀ s ∈ ss, s.Narrow) : Narrow (.array ss)
  | marker {m : Marker Unit} (narrow : ∀ e ∈ m.properties.resolved, Narrow e.2) :
      Narrow (.marker m)
  | markers {ms : List (Marker Unit)} (narrow : ∀ m ∈ ms, Narrow (.marker m)) :
      Narrow (.markers ms)

theorem Fitting.portable {n : Nat} {v : Value} (h : v.Fitting n) (hn : v.Narrow) :
    v.Portable n := by
  induction h with
  | scalar named =>
    obtain ⟨narrow⟩ := hn
    exact .scalar ((Scalar.portable_iff _).2 ⟨named, narrow⟩)
  | array named =>
    obtain _ | ⟨narrow⟩ := hn
    exact .array fun s hs => (Scalar.portable_iff s).2 ⟨named s hs, narrow s hs⟩
  | marker wellFormed stable _ ih =>
    obtain _ | _ | ⟨narrow⟩ := hn
    exact .marker wellFormed stable fun e he => ih e he (narrow e he)
  | markers _ ih =>
    obtain _ | _ | _ | ⟨narrow⟩ := hn
    exact .markers fun m hm => ih m hm (narrow m hm)

end Value

namespace ClassFile

open Reader Interning Walk

/-! ## What the bytes of a value demand -/

variable {σ : Type} {t : ConstantTable} {v : Visitor σ}

/-- Told with room for `n` markers and arrays, the bytes demand that the value is narrow. -/
def DemandsValue (v : Visitor σ) (t : ConstantTable) (n : Nat) (bs : Bytes) (x : Value) : Prop :=
  ∀ visible limit property, Demands (elementIn v t visible limit n property) bs x.Narrow

/-- Told with elements that have room for `n` markers and arrays, the bytes demand that the marker
is narrow. -/
def DemandsMarker (v : Visitor σ) (t : ConstantTable) (n : Nat) (bs : Bytes) (m : Marker Unit) :
    Prop :=
  ∀ visible limit property, Demands (tellMarker v t visible (elementIn v t visible limit n)
    property) bs (Value.marker m).Narrow

/-- The bytes of a scalar: the byte that announces its kind, and a body from which a scalar is read
only if the one written was narrow. -/
def DemandsScalar (v : Visitor σ) (t : ConstantTable) (bs : Bytes) (s : Scalar) : Prop :=
  ∃ tag body, bs = tag :: body ∧ ElementTag.ofByte? tag = some (.scalar s.kind) ∧
    ∀ property, Demands (do
      let s ← Walk.read (readScalar t s.kind)
      tell v (.value property s)) body s.Narrow

theorem demandsScalar_of_spells {bs : Bytes} {s : Scalar} (h : SpellsScalar t bs s)
    (hs : s.Narrow) : DemandsScalar v t bs s := by
  obtain ⟨tag, body, rfl, htag, hbody⟩ := h
  refine ⟨tag, body, rfl, htag, fun property => ?_⟩
  rw [← List.append_nil body]
  exact demands_read hbody ((demands_tell v _).imp fun _ => hs)

/-- A number beyond 16 bits is no character. -/
theorem demandsScalar_wide {i : UInt16} {c : Char} (hi : t.get i = .ok (.integer (.ofNat c.toNat)))
    (hc : ¬ c.toNat < 0x10000) : DemandsScalar v t (encodeTagged 'C' i) (.char c) := by
  refine ⟨_, _, rfl, rfl, fun property => demands_unread fun rest => ?_⟩
  have hvalid : c.toNat < 0x110000 := by
    have valid : c.toNat < 0xD800 ∨ 0xDFFF < c.toNat ∧ c.toNat < 0x110000 := c.valid
    omega
  have hn : (Int32.ofNat c.toNat).toInt = c.toNat := Int32.toInt_ofNat_of_lt (by omega)
  have hout : ¬ (0 ≤ (Int32.ofNat c.toNat).toInt ∧ (Int32.ofNat c.toNat).toInt ≤ 65535) := by
    rw [hn]; omega
  refine ⟨.malformed (.constantRange (.ofNat c.toNat)), Reader.bind_error ?_⟩
  refine (reads_indexed (ConstantTable.integer_eq_ok_iff.2 hi)).bind_error ?_
  rw [if_neg hout]
  rfl

theorem yields_scalar_demands {s : Scalar} (h : s.Named) :
    Yields (encodeScalar s) fun t bs => DemandsScalar v t bs s := by
  by_cases hs : s.Narrow
  · exact (yields_scalar ((Scalar.portable_iff s).2 ⟨h, hs⟩)).imp fun t bs hspells =>
      demandsScalar_of_spells hspells hs
  · cases s with
    | char c => exact (yields_constant _).map fun t i hi => demandsScalar_wide hi hs
    | _ => exact absurd trivial hs

theorem demandsValue_scalar {bs : Bytes} {s : Scalar} (h : DemandsScalar v t bs s) (n : Nat) :
    DemandsValue v t n bs (.scalar s) := by
  obtain ⟨tag, body, rfl, htag, hbody⟩ := h
  intro visible limit property
  have hdemands := (hbody property).imp Value.Narrow.scalar
  -- A scalar needs no room: with and without it the same is told.
  cases n with
  | zero => exact demands_read (reads_elementTag htag) hdemands
  | succ n => exact demands_read (reads_elementTag htag) hdemands

theorem demandsValue_marker {n : Nat} {bs : Bytes} {m : Marker Unit} (h : DemandsMarker v t n bs m) :
    DemandsValue v t (n + 1) (UInt8.ofNat '@'.toNat :: bs) (.marker m) := by
  intro visible limit property
  exact demands_read (reads_elementTag (b := UInt8.ofNat '@'.toNat) rfl) (h visible limit property)

/-- An array demands what its elements do. -/
theorem demands_array {α : Type} {P : α → Prop} {count : Bytes} {k : UInt16} {xs : List α}
    {elements : List Bytes} {element : Option String → Walk σ Unit} (hk : k.toNat = xs.length)
    (hcount : Reads Reader.u16 count k)
    (h : List.Forall₂ (fun x bs => Demands (element none) bs (P x)) xs elements) (name : String) :
    Demands (tellArray v element name) (count ++ elements.flatten) (∀ x ∈ xs, P x) :=
  ((demands_tell v _).bind (u := fun _ => _) (demands_counted hcount hk h (demands_tell v _))).imp
    And.right

/-- The same behind the byte that announces it; as an element of an array it is not answered. -/
theorem demandsValue_array {α : Type} {P : α → Prop} {n : Nat} {count : Bytes} {k : UInt16}
    {xs : List α} {elements : List Bytes} {x : Value} (hk : k.toNat = xs.length)
    (hcount : Reads Reader.u16 count k) (hx : (∀ x ∈ xs, P x) → x.Narrow)
    (h : ∀ visible limit, List.Forall₂ (fun x bs =>
      Demands (elementIn v t visible limit n none) bs (P x)) xs elements) :
    DemandsValue v t (n + 1) (UInt8.ofNat '['.toNat :: count ++ elements.flatten) x := by
  intro visible limit property
  have htag := reads_elementTag (b := UInt8.ofNat '['.toNat) rfl
  rw [List.cons_append]
  cases property with
  | none => exact demands_read htag (demands_fail _)
  | some name => exact demands_read htag ((demands_array hk hcount (h visible limit) name).imp hx)

/-- A marker demands what its properties do. -/
theorem demandsMarker {n : Nat} {i k : UInt16} {count : Bytes} {pairs : List Bytes}
    {m : Marker Unit} (hs : Descriptor.Stable m.type)
    (hi : t.utf8 i = .ok (Descriptor.ofName m.type)) (hk : k.toNat = m.properties.size)
    (hcount : Reads Reader.u16 count k)
    (h : List.Forall₂ (fun e bs => ∃ j element, bs = BigEndian.u16 j ++ element ∧
      t.utf8 j = .ok e.1 ∧ DemandsValue v t n element e.2) m.properties.resolved pairs) :
    DemandsMarker v t n (BigEndian.u16 i ++ (count ++ pairs.flatten)) m := by
  intro visible limit property
  have hpairs : List.Forall₂ (fun e bs => Demands (do
      let name ← Walk.read (readIndexed t.utf8)
      elementIn v t visible limit n (some name)) bs e.2.Narrow) m.properties.resolved pairs := by
    refine h.imp fun e bs he => ?_
    obtain ⟨j, element, rfl, hj, hvalue⟩ := he
    exact demands_read (reads_indexed hj) (hvalue visible limit (some e.1))
  refine demands_read (reads_typeName hs hi) ?_
  have hbody := (demands_tell v (.markerStart m.type property visible)).bind
    (u := fun _ => do
      let count ← Walk.read Reader.u16
      times count.toNat (do
        let name ← Walk.read (readIndexed t.utf8)
        elementIn v t visible limit n (some name))
      tell v (.markerEnd m.type))
    (demands_counted hcount hk hpairs (demands_tell v _))
  exact hbody.imp fun hall => .marker hall.2

/-! ## What is written -/

theorem yields_marker_demands {n : Nat} {m : Marker Unit} (hs : Descriptor.Stable m.type)
    (h : ∀ e ∈ m.properties.resolved,
      Yields (encodeValue e.2) fun t bs => DemandsValue v t n bs e.2) :
    Yields (encodeMarker m) fun t bs => DemandsMarker v t n bs m := by
  unfold encodeMarker
  rw [encodeProperties_eq]
  refine (yields_typeName m.type).bind fun i => Yields.map
    (P := fun t bs => ∃ count pairs, ∃ k : UInt16, bs = count ++ List.flatten pairs ∧
      k.toNat = m.properties.size ∧ Reads Reader.u16 count k ∧
      List.Forall₂ (fun e bs => ∃ j element, bs = BigEndian.u16 j ++ element ∧ t.utf8 j = .ok e.1 ∧
        DemandsValue v t n element e.2) m.properties.resolved pairs) ?_ ?_
  · refine yields_counted (P := fun e t bs => ∃ j element, bs = BigEndian.u16 j ++ element ∧
      t.utf8 j = .ok e.1 ∧ DemandsValue v t n element e.2) (fun e he => ?_) ?_
    · refine (yields_text e.1).bind fun j => (h e he).bind fun element => ?_
      exact yields_pure fun t hvalue hj => ⟨j, element, rfl, hj, hvalue⟩
    · intro t count pairs k hk hread hpairs
      exact ⟨count, pairs, k, rfl, hk, hread, hpairs⟩
  · rintro t bs ⟨count, pairs, k, rfl, hk, hcount, hpairs⟩ hi
    exact demandsMarker hs hi hk hcount hpairs

/-- A fitting value is written as bytes that demand that it is narrow. -/
theorem yields_value_demands {n : Nat} {x : Value} (h : x.Fitting n) :
    Yields (encodeValue x) fun t bs => DemandsValue v t n bs x := by
  induction h with
  | @scalar n s named =>
    rw [encodeValue]
    exact (yields_scalar_demands named).imp fun t bs h => demandsValue_scalar h n
  | @array n ss named =>
    rw [encodeValue]
    refine yields_counted (fun s hs => yields_scalar_demands (v := v) (named s hs)) ?_
    intro t count elements k hk hread helements
    refine demandsValue_array hk hread Value.Narrow.array fun visible limit => ?_
    refine helements.imp fun s bs hs => ?_
    refine (demandsValue_scalar hs n visible limit none).imp ?_
    rintro ⟨narrow⟩
    exact narrow
  | marker _ hs _ ih =>
    rw [encodeValue_marker]
    exact (yields_marker_demands hs ih).map fun t bs => demandsValue_marker
  | @markers n ms _ ih =>
    rw [encodeValue_markers]
    refine yields_counted ih ?_
    intro t count elements k hk hread helements
    refine demandsValue_array hk hread Value.Narrow.markers fun visible limit => ?_
    exact helements.imp fun m bs hm => hm visible limit none

/-- A fitting marker on its own is written as bytes that are accepted exactly if it is narrow, and
then file the rebuilt marker. -/
theorem yields_topMarker_acceptsIff {n : Nat} {m : Marker Unit} (h : (Value.marker m).Fitting n) :
    Yields (encodeMarker m) fun t bs => ∀ visible limit,
      AcceptsIff (markerIn (Collector.visitor none) t visible limit n none) bs
        (Value.marker m).Narrow (Collector.file m.rebuilt none) := by
  have hdemands : Yields (encodeMarker m) fun t bs => ∀ visible limit,
      Demands (markerIn (Collector.visitor none) t visible limit n none) bs
        (Value.marker m).Narrow := by
    cases h with
    | marker _ hs hvalues =>
      have hmarker := yields_marker_demands (v := Collector.visitor none) hs fun e he =>
        yields_value_demands (hvalues e he)
      exact hmarker.imp fun t bs h visible limit => h visible limit none
  by_cases hn : (Value.marker m).Narrow
  · refine ((yields_topMarker (h.portable hn)).and hdemands).imp fun t bs h visible limit => ?_
    exact ⟨fun _ => h.1 visible limit, h.2 visible limit⟩
  · refine hdemands.imp fun t bs h visible limit => ?_
    exact ⟨fun hnarrow => absurd hnarrow hn, h visible limit⟩

end ClassFile

end MarkerIndex
