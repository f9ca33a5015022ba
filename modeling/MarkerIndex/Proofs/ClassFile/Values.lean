/-
Values written and collected: the bytes of a portable value, told to the collector with the table
that is written in the end, place the rebuilt value, and the bytes of a portable marker file the
rebuilt marker. The statement about values is by induction on what makes a value portable; the
room that a value needs is the room that telling its bytes needs.
-/
import MarkerIndex.Proofs.ClassFile.Collector
import MarkerIndex.Proofs.ClassFile.Scalars

namespace MarkerIndex

/-- A value that an array may hold. -/
def Value.Single : Value → Prop
  | .scalar _ | .marker _ => True
  | _ => False

namespace ClassFile

open Reader Interning Walk

/-! ## Encodings without membership -/

theorem encodeProperties_eq (p : Properties) : encodeProperties p = do
    let count ← encodeCount "marker properties" p.size
    let pairs ← p.resolved.mapM fun e => do
      let name ← Interning.text e.1
      let element ← encodeValue e.2
      return BigEndian.u16 name ++ element
    return count ++ pairs.flatten := by
  rw [encodeProperties]
  congr 1; funext count
  rw [List.mapM_subtype (g := fun e : String × Value => do
    let name ← Interning.text e.1
    let element ← encodeValue e.2
    return BigEndian.u16 name ++ element) (fun _ _ => rfl), List.unattach_attach]

theorem encodeValue_marker (m : Marker Unit) :
    encodeValue (.marker m) = (fun bs => UInt8.ofNat '@'.toNat :: bs) <$> encodeMarker m := by
  rw [encodeValue, encodeMarker]
  simp [encodeTagged]

theorem encodeValue_markers (ms : List (Marker Unit)) : encodeValue (.markers ms) = do
    let count ← encodeCount "array elements" ms.length
    let elements ← ms.mapM fun m => encodeValue (.marker m)
    return UInt8.ofNat '['.toNat :: count ++ elements.flatten := by
  rw [encodeValue]
  congr 1; funext count
  rw [List.mapM_subtype (g := fun m => encodeValue (.marker m)) (fun m _ => by rw [encodeValue]),
    List.unattach_attach]

/-! ## Elements -/

section Elements

variable {t : ConstantTable}

/-- Told with room for `n` markers and arrays, the bytes place the rebuilt value, as a property or
as the element of an array. -/
def SpellsValue (t : ConstantTable) (n : Nat) (bs : Bytes) (v : Value) : Prop :=
  ∀ visible limit property, (property = none → v.Single) →
    Takes (elementIn (Collector.visitor none) t visible limit n property) bs
      (Collector.place property v.rebuilt)

/-- Told with elements that have room for `n` markers and arrays, the bytes file the rebuilt
marker. -/
def SpellsMarker (t : ConstantTable) (n : Nat) (bs : Bytes) (m : Marker Unit) : Prop :=
  ∀ visible limit property,
    Takes (tellMarker (Collector.visitor none) t visible
      (elementIn (Collector.visitor none) t visible limit n) property) bs
      (Collector.file m.rebuilt property)

theorem reads_elementTag {b : UInt8} {tag : ElementTag} (h : ElementTag.ofByte? b = some tag) :
    Reads readElementTag [b] tag := by
  refine (reads_u8 b).bind_nil ?_
  rw [h]; exact reads_pure tag

theorem spellsValue_scalar {bs : Bytes} {s : Scalar} (h : SpellsScalar t bs s) (n : Nat) :
    SpellsValue t n bs (.scalar s) := by
  obtain ⟨tag, body, rfl, htag, hbody⟩ := h
  intro visible limit property _
  have htell := takes_read_done (w := fun s => tell (Collector.visitor none) (.value property s))
    hbody (takes_tell _ _)
  rw [Value.rebuilt_scalar]
  -- A scalar needs no room: with and without it the same is told.
  cases n with
  | zero => exact takes_read (reads_elementTag htag) htell
  | succ n => exact takes_read (reads_elementTag htag) htell

theorem spellsValue_marker {n : Nat} {bs : Bytes} {m : Marker Unit} (h : SpellsMarker t n bs m) :
    SpellsValue t (n + 1) (UInt8.ofNat '@'.toNat :: bs) (.marker m) := by
  intro visible limit property _
  rw [Value.rebuilt_marker]
  have hmarker := (h visible limit property).imp fun s s' => Collector.file_of_place
  exact takes_read (reads_elementTag (b := UInt8.ofNat '@'.toNat) rfl) hmarker

/-- An array is told as its elements are, between a start and an end. -/
theorem takes_array {α : Type} {count : Bytes} {k : UInt16} {xs : List α} {elements : List Bytes}
    {element : Option String → Walk Collector Unit} {place : α → Collector → Bool × Collector}
    (hk : k.toNat = xs.length) (hcount : Reads Reader.u16 count k)
    (h : List.Forall₂ (fun x bs => Takes (element none) bs (place x)) xs elements)
    (name : String) :
    Takes (tellArray (Collector.visitor none) element name) (count ++ elements.flatten)
      (andAlso ((Collector.visitor none).visit (.arrayStart name))
        (andAlso (eachOf place xs) ((Collector.visitor none).visit (.arrayEnd name)))) :=
  (takes_tell _ _).bind (takes_counted hcount hk h (takes_tell _ _))

theorem spellsValue_array {n : Nat} {count : Bytes} {k : UInt16} {ss : List Scalar}
    {elements : List Bytes} (hk : k.toNat = ss.length) (hcount : Reads Reader.u16 count k)
    (h : List.Forall₂ (fun s bs => SpellsScalar t bs s) ss elements) :
    SpellsValue t (n + 1) (UInt8.ofNat '['.toNat :: count ++ elements.flatten) (.array ss) := by
  intro visible limit property hp
  cases property with
  | none => exact (hp rfl).elim
  | some name =>
    have hes : List.Forall₂ (fun s bs =>
        Takes (elementIn (Collector.visitor none) t visible limit n none) bs
          (Collector.place none (.scalar s))) ss elements := h.imp fun s bs hs => by
      have := spellsValue_scalar hs n visible limit none fun _ => trivial
      rwa [Value.rebuilt_scalar] at this
    have htell := (takes_array hk hcount hes name).imp fun s s' hs =>
      Collector.tell_scalars.trans hs
    rw [Value.rebuilt_array, List.cons_append]
    exact takes_read (reads_elementTag (b := UInt8.ofNat '['.toNat) rfl) htell

theorem spellsValue_markers {n : Nat} {count : Bytes} {k : UInt16} {ms : List (Marker Unit)}
    {elements : List Bytes} (hk : k.toNat = ms.length) (hcount : Reads Reader.u16 count k)
    (h : List.Forall₂ (fun m bs => SpellsValue t n bs (.marker m)) ms elements) :
    SpellsValue t (n + 1) (UInt8.ofNat '['.toNat :: count ++ elements.flatten) (.markers ms) := by
  intro visible limit property hp
  cases property with
  | none => exact (hp rfl).elim
  | some name =>
    have hes : List.Forall₂ (fun m bs =>
        Takes (elementIn (Collector.visitor none) t visible limit n none) bs
          (Collector.place none (.marker m.rebuilt))) ms elements := h.imp fun m bs hm => by
      have := hm visible limit none fun _ => trivial
      rwa [Value.rebuilt_marker] at this
    have htell := takes_array hk hcount hes name
    rw [← eachOf_map (fun m => Collector.place none (.marker m))] at htell
    have htell := htell.imp fun s s' hs => Collector.tell_markers.trans hs
    rw [Value.rebuilt_markers, ← List.isEmpty_map (f := MarkerOf.rebuilt), List.cons_append]
    exact takes_read (reads_elementTag (b := UInt8.ofNat '['.toNat) rfl) htell

/-- The bytes of a property: the index of its name and an element that spells its value. -/
def SpellsProperty (t : ConstantTable) (n : Nat) (bs : Bytes) (e : String × Value) : Prop :=
  ∃ i element, bs = BigEndian.u16 i ++ element ∧ t.utf8 i = .ok e.1 ∧ SpellsValue t n element e.2

/-- A marker is told as its properties are, between a start and an end. -/
theorem takes_marker {α : Type} {i k : UInt16} {type : String} {count : Bytes} {xs : List α}
    {pairs : List Bytes} {element : Option String → Walk Collector Unit}
    {place : α → Collector → Bool × Collector} (hs : Descriptor.Stable type)
    (hi : t.utf8 i = .ok (Descriptor.ofName type)) (hk : k.toNat = xs.length)
    (hcount : Reads Reader.u16 count k)
    (h : List.Forall₂ (fun x bs => Takes (do
      let name ← Walk.read (readIndexed t.utf8)
      element (some name)) bs (place x)) xs pairs) (visible : Bool) (property : Option String) :
    Takes (tellMarker (Collector.visitor none) t visible element property)
      (BigEndian.u16 i ++ (count ++ pairs.flatten))
      (andAlso ((Collector.visitor none).visit (.markerStart type property visible))
        (andAlso (eachOf place xs) ((Collector.visitor none).visit (.markerEnd type)))) := by
  refine takes_read (reads_typeName hs hi) ((takes_tell _ _).bind ?_)
  exact takes_counted hcount hk h (takes_tell _ _)

theorem spellsMarker {n : Nat} {i k : UInt16} {count : Bytes} {pairs : List Bytes}
    {m : Marker Unit} (hm : m.WellFormed) (hs : Descriptor.Stable m.type)
    (hi : t.utf8 i = .ok (Descriptor.ofName m.type)) (hk : k.toNat = m.properties.size)
    (hcount : Reads Reader.u16 count k)
    (h : List.Forall₂ (fun e bs => SpellsProperty t n bs e) m.properties.resolved pairs) :
    SpellsMarker t n (BigEndian.u16 i ++ (count ++ pairs.flatten)) m := by
  intro visible limit property
  have hpairs : List.Forall₂ (fun e bs => Takes (do
      let name ← Walk.read (readIndexed t.utf8)
      elementIn (Collector.visitor none) t visible limit n (some name)) bs
        (Collector.place (some e.1) e.2.rebuilt)) m.properties.resolved pairs := by
    refine h.imp fun e bs he => ?_
    obtain ⟨j, element, rfl, hj, hv⟩ := he
    exact takes_read (reads_indexed hj) (hv visible limit (some e.1) fun h => by cases h)
  -- No name resolves twice, so the collector never puts one property in place of another.
  have hd : Entries.Distinct (m.properties.resolved.mapValues Value.rebuilt) :=
    (Layered.distinct_resolved hm.layers).mapValues _
  have heach : eachOf (fun e : String × Value => Collector.place (some e.1) e.2)
      (m.properties.resolved.mapValues Value.rebuilt) =
      eachOf (fun e => Collector.place (some e.1) e.2.rebuilt) m.properties.resolved :=
    eachOf_map _ _ _
  have htell := takes_marker hs hi hk hcount hpairs visible property
  rw [← heach] at htell
  refine htell.imp fun s s' hfile => ?_
  rw [MarkerOf.rebuilt, Properties.rebuilt_eq] at hfile
  exact (Collector.tell_marker hm.type hd).trans hfile

end Elements

/-! ## What is written -/

theorem yields_property {n : Nat} {e : String × Value}
    (h : Yields (encodeValue e.2) fun t bs => SpellsValue t n bs e.2) :
    Yields (do
      let name ← Interning.text e.1
      let element ← encodeValue e.2
      return BigEndian.u16 name ++ element) fun t bs => SpellsProperty t n bs e := by
  refine (yields_text e.1).bind fun i => h.bind fun element => ?_
  exact yields_pure fun t hv hi => ⟨i, element, rfl, hi, hv⟩

/-- A marker is written as bytes that spell it when its values are. -/
theorem yields_marker {n : Nat} {m : Marker Unit} (hm : m.WellFormed)
    (hs : Descriptor.Stable m.type)
    (h : ∀ e ∈ m.properties.resolved,
      Yields (encodeValue e.2) fun t bs => SpellsValue t n bs e.2) :
    Yields (encodeMarker m) fun t bs => SpellsMarker t n bs m := by
  unfold encodeMarker
  rw [encodeProperties_eq]
  refine (yields_typeName m.type).bind fun i => Yields.bind
    (P := fun t bs => ∃ count pairs, ∃ k : UInt16, bs = count ++ List.flatten pairs ∧
      k.toNat = m.properties.size ∧ Reads Reader.u16 count k ∧
      List.Forall₂ (fun e bs => SpellsProperty t n bs e) m.properties.resolved pairs) ?_ ?_
  · refine yields_counted (fun e he => yields_property (h e he)) ?_
    intro t count pairs k hk hread hpairs
    exact ⟨count, pairs, k, rfl, hk, hread, hpairs⟩
  · intro bs
    refine yields_pure fun t hbs hi => ?_
    obtain ⟨count, pairs, k, rfl, hk, hcount, hpairs⟩ := hbs
    exact spellsMarker hm hs hi hk hcount hpairs

/-- A portable value is written as bytes that spell it. -/
theorem yields_value {n : Nat} {v : Value} (h : v.Portable n) :
    Yields (encodeValue v) fun t bs => SpellsValue t n bs v := by
  induction h with
  | @scalar n s hs =>
    rw [encodeValue]
    exact (yields_scalar hs).imp fun t bs h => spellsValue_scalar h n
  | @array n ss hss =>
    rw [encodeValue]
    refine yields_counted (fun s hs => yields_scalar (hss s hs)) ?_
    intro t count elements k hk hread helements
    exact spellsValue_array hk hread helements
  | marker hm hs _ ih =>
    rw [encodeValue_marker]
    exact (yields_marker hm hs ih).map fun t bs => spellsValue_marker
  | @markers n ms _ ih =>
    rw [encodeValue_markers]
    refine yields_counted ih ?_
    intro t count elements k hk hread helements
    exact spellsValue_markers hk hread helements

/-- A portable marker on its own is written as bytes that file the rebuilt marker. -/
theorem yields_topMarker {n : Nat} {m : Marker Unit} (h : (Value.marker m).Portable n) :
    Yields (encodeMarker m) fun t bs => ∀ visible limit,
      Takes (markerIn (Collector.visitor none) t visible limit n none) bs
        (Collector.file m.rebuilt none) := by
  cases h with
  | marker hm hs hvalues =>
    refine (yields_marker hm hs fun e he => yields_value (hvalues e he)).imp fun t bs h => ?_
    exact fun visible limit => h visible limit none

end ClassFile

end MarkerIndex
