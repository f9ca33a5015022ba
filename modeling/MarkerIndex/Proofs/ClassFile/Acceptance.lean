/-
Which written classes are read. Whatever the scalars in its markers are, a class is written in such
a way that it is read back exactly if every character inside the markers that are told is one unit
of 16 bits. Markers of an attribute that is not told are never looked at, and the slashes that names
of classes may have turn into points without any other effect: a class with slashes is written as
the same bytes as the class with points in their place.
-/
import MarkerIndex.Proofs.ClassFile.Naming
import MarkerIndex.Proofs.ClassFile.Narrow
import MarkerIndex.Proofs.ClassFile.Reading
import MarkerIndex.Proofs.ClassFile.RoundTrip

namespace MarkerIndex.ClassFile

open Reader Interning Walk

/-! ## Slashes in names of classes -/

namespace ClassSpec

/-- The class with points for the slashes in its own name and in those it refers to. -/
def dotted (c : ClassSpec) : ClassSpec :=
  { c with
    name := Descriptor.ofInternal c.name
    super := c.super.map Descriptor.ofInternal
    interfaces := c.interfaces.map Descriptor.ofInternal }

theorem className_ofInternal (name : String) :
    Interning.className (Descriptor.ofInternal name) = Interning.className name := by
  unfold Interning.className
  rw [Descriptor.toInternal_ofInternal]

theorem encodeInterfaces_ofInternal (names : List String) :
    encodeInterfaces (names.map Descriptor.ofInternal) = encodeInterfaces names := by
  have hindex : (fun name => BigEndian.u16 <$> Interning.className name) ∘ Descriptor.ofInternal =
      fun name => BigEndian.u16 <$> Interning.className name := by
    funext name
    exact congrArg (BigEndian.u16 <$> ·) (className_ofInternal name)
  unfold encodeInterfaces
  rw [List.length_map, List.mapM_map, hindex]

/-- Slashes and points are written alike. -/
theorem encode_dotted (c : ClassSpec) : c.dotted.encode = c.encode := by
  have hbody : encodeBody c.dotted = encodeBody c := by
    unfold encodeBody dotted
    simp only [className_ofInternal, encodeInterfaces_ofInternal]
    cases c.super with
    | none => rfl
    | some super => simp only [Option.map_some, className_ofInternal]
  unfold encode
  rw [hbody]
  rfl

/-- No other attribute is named like a marker attribute, and the markers fit. -/
structure Fitting (c : ClassSpec) (o : Options) : Prop where
  attributes : ∀ a ∈ c.attributes, a.1 ≠ visibleMarkers ∧ a.1 ≠ invisibleMarkers
  markers : ∀ m ∈ c.visible ++ c.invisible, (Value.marker m).Fitting o.maxNesting

end ClassSpec

/-! ## Attributes -/

/-- Every character inside the markers is one unit of 16 bits. -/
def AllNarrow (ms : List (Marker Unit)) : Prop := ∀ m ∈ ms, (Value.marker m).Narrow

theorem forall₂_of_all {α β : Type} {P : α → Prop} {R : α → β → Prop} {xs : List α} {ys : List β}
    (h : List.Forall₂ (fun x y => P x → R x y) xs ys) (hall : ∀ x ∈ xs, P x) :
    List.Forall₂ R xs ys := by
  induction h with
  | nil => exact .nil
  | cons hxy _ ih =>
    rw [List.forall_mem_cons] at hall
    exact .cons (hxy hall.1) (ih hall.2)

/-- The attribute of this name and body is accepted exactly if these markers are narrow, and then
files them. -/
def DecidesAttribute (o : Options) (t : ConstantTable) (p : UInt16 × Bytes)
    (ms : List (Marker Unit)) : Prop :=
  ∃ name, t.utf8 p.1 = .ok name ∧
    match markerVisibility? o name with
    | none => ms = []
    | some visible => AcceptsIff (within p.2
        (tellMarkers (Collector.visitor none) t visible o.maxNesting name)) [] (AllNarrow ms)
        (filing ms)

section Attributes

variable {o : Options} {t : ConstantTable}

theorem reads_attribute {i : UInt16} {name : String} {body : Bytes} (hname : t.utf8 i = .ok name)
    (hlength : body.length < 4294967296) :
    Reads (do
      let name ← readIndexed t.utf8
      let length ← Reader.u32
      return (name, ← Reader.take length.toNat))
      (BigEndian.u16 i ++ (BigEndian.encode 4 body.length ++ body)) (name, body) := by
  refine (reads_indexed hname).bind ((reads_length hlength).bind ?_)
  rw [UInt32.toNat_ofNat_of_lt' hlength]
  exact (reads_take body).map fun body => (name, body)

theorem acceptsIff_attribute {i : UInt16} {body : Bytes} {ms : List (Marker Unit)}
    (hlength : body.length < 4294967296) (h : DecidesAttribute o t (i, body) ms) :
    AcceptsIff (tellAttribute o (Collector.visitor none) t)
      (BigEndian.u16 i ++ BigEndian.encode 4 body.length ++ body) (AllNarrow ms) (filing ms) := by
  obtain ⟨name, hname, h⟩ := h
  constructor
  · intro hnarrow
    refine takes_attribute hlength ⟨name, hname, ?_⟩
    dsimp only at h ⊢
    split
    next hv => rw [hv] at h; exact h
    next visible hv => rw [hv] at h; exact h.takes hnarrow
  · rw [List.append_assoc, ← List.append_nil (_ ++ _)]
    refine demands_read (reads_attribute hname hlength) ?_
    dsimp only at h ⊢
    split
    next hv =>
      rw [hv] at h
      subst h
      exact (demands_done ()).imp fun _ => by simp [AllNarrow]
    next visible hv => rw [hv] at h; exact h.demands

/-- The body of a marker attribute is accepted exactly if its markers are narrow. -/
theorem acceptsIff_markers {visible : Bool} {limit : Nat} {name : String} {count : Bytes}
    {k : UInt16} {ms : List (Marker Unit)} {bodies : List Bytes} (hk : k.toNat = ms.length)
    (hcount : Reads Reader.u16 count k)
    (h : List.Forall₂ (fun m bs => AcceptsIff (markerIn (Collector.visitor none) t visible limit
      limit none) bs (Value.marker m).Narrow (Collector.file m.rebuilt none)) ms bodies) :
    AcceptsIff (within (count ++ bodies.flatten)
      (tellMarkers (Collector.visitor none) t visible limit name)) [] (AllNarrow ms)
      (filing ms) where
  takes hnarrow := takes_markers hk hcount (forall₂_of_all (h.imp fun _ _ hm => hm.takes) hnarrow)
  demands := demands_within (demands_counted hcount hk (h.imp fun _ _ hm => hm.demands)
    (demands_atEnd _))

theorem yields_markerAttribute_acceptsIff {name : String} {ms : List (Marker Unit)}
    (h : ∀ m ∈ ms, (Value.marker m).Fitting o.maxNesting) :
    Yields (markerAttribute name ms) fun t =>
      Listed (DecidesAttribute o t) (if (markerVisibility? o name).isSome then ms else []) := by
  unfold markerAttribute
  split
  next he =>
    refine yields_pure fun t => ⟨[], .nil, ?_⟩
    rw [List.isEmpty_iff.1 he]; split <;> rfl
  next =>
    refine (yields_count _ _).bind fun count => ?_
    refine (yields_mapM fun m hm => yields_topMarker_acceptsIff (h m hm)).bind fun bodies => ?_
    refine (yields_text name).bind fun i => ?_
    refine yields_pure fun t hi hbodies hcount => ?_
    obtain ⟨k, hk, hread⟩ := hcount
    -- The body of an attribute that is not told is never read.
    cases hv : markerVisibility? o name with
    | none => exact ⟨[[]], .cons ⟨name, hi, by rw [hv]⟩ .nil, rfl⟩
    | some visible =>
      refine ⟨[ms], .cons ⟨name, hi, ?_⟩ .nil, by simp⟩
      rw [hv]
      exact acceptsIff_markers hk hread (hbodies.imp fun m bs hm => hm visible o.maxNesting)

/-- An attribute of another name is always accepted, and files nothing. -/
theorem yields_plainAttributes_acceptsIff {attributes : List (String × Bytes)}
    (h : ∀ a ∈ attributes, a.1 ≠ visibleMarkers ∧ a.1 ≠ invisibleMarkers) :
    Yields (attributes.mapM fun (name, body) => return (← Interning.text name, body)) fun t =>
      Listed (DecidesAttribute o t) [] := by
  have hone : ∀ a ∈ attributes, Yields (do return (← Interning.text a.1, a.2)) fun t p =>
      DecidesAttribute o t p [] := by
    intro a ha
    refine (yields_text a.1).bind fun i => yields_pure fun t hi => ⟨a.1, hi, ?_⟩
    have hv : markerVisibility? o a.1 = none := by
      unfold markerVisibility?
      rw [if_neg (h a ha).1, if_neg fun hc => (h a ha).2 hc.1]
    rw [hv]
  refine (yields_mapM hone).imp fun t plain hplain => ⟨attributes.map fun _ => [], ?_, by simp⟩
  rw [List.forall₂_map_right_iff]
  exact hplain.flip

theorem yields_attribute_acceptsIff (o : Options) (p : UInt16 × Bytes) :
    Yields (encodeAttribute p.1 p.2) fun t bs => ∀ ms, DecidesAttribute o t p ms →
      AcceptsIff (tellAttribute o (Collector.visitor none) t) bs (AllNarrow ms) (filing ms) := by
  unfold encodeAttribute
  split
  next hlength => exact yields_pure fun t ms hms => acceptsIff_attribute hlength hms
  next => exact yields_refuse _

end Attributes

/-! ## The class -/

section Class

variable {c : ClassSpec} {o : Options} {bytes : Bytes}

/-- The attributes are accepted exactly if their markers are narrow, and then file them. -/
def DecidesBody (o : Options) (t : ConstantTable) (c : ClassSpec) (p : BodyParts) : Prop :=
  PartsOf (fun ms bs => AcceptsIff (tellAttribute o (Collector.visitor none) t) bs (AllNarrow ms)
    (filing ms)) o t c p

theorem yields_body_acceptsIff (h : c.Fitting o) :
    Yields (encodeBody c.dotted) fun t body =>
      ∃ p : BodyParts, body = p.bytes c.dotted ∧ DecidesBody o t c.dotted p := by
  have hmarkers : ∀ m ∈ c.visible ++ c.invisible, (Value.marker m).Fitting o.maxNesting := h.markers
  have hslash := Descriptor.slash_notMem_ofInternal
  refine yields_parts (c := c.dotted) (hslash c.name) ?_ ?_
    (yields_plainAttributes_acceptsIff h.attributes)
    (yields_markerAttribute_acceptsIff fun m hm => hmarkers m (List.mem_append_left _ hm))
    (yields_markerAttribute_acceptsIff fun m hm => hmarkers m (List.mem_append_right _ hm))
    (yields_attribute_acceptsIff o)
  · intro super hsuper
    obtain ⟨super, -, rfl⟩ := Option.mem_map.1 hsuper
    exact hslash super
  · intro interface hinterface
    obtain ⟨interface, -, rfl⟩ := List.mem_map.1 hinterface
    exact hslash interface

theorem allNarrow_flatten {lists : List (List (Marker Unit))} :
    AllNarrow lists.flatten ↔ ∀ ms ∈ lists, AllNarrow ms := by
  unfold AllNarrow
  constructor
  · intro h ms hms m hm
    exact h m (List.mem_flatten.2 ⟨ms, hms, hm⟩)
  · intro h m hm
    obtain ⟨ms, hms, hm⟩ := List.mem_flatten.1 hm
    exact h ms hms m hm

/-- The bytes of a class, told to the collector, are accepted exactly if the markers that are told
are narrow. -/
theorem acceptsIff_class {cs : List Constant} {table : Bytes} {p : BodyParts}
    (htable : Reads ConstantTable.read table (.ofConstants cs))
    (h : DecidesBody o (.ofConstants cs) c p) :
    AcceptsIff (tellClass o (Collector.visitor none)) (BigEndian.u32 magic ++
      BigEndian.u16 c.minor ++ BigEndian.u16 c.major ++ table ++ p.bytes c) (AllNarrow (c.told o))
      (andAlso ((Collector.visitor none).visit (.header c.header))
        (andAlso (filing (c.told o)) ((Collector.visitor none).visit .finish))) := by
  obtain ⟨lists, k, hk, hcount, hflat, hattributes⟩ := h.attributes
  rw [← hflat, allNarrow_flatten]
  constructor
  · intro hnarrow
    have htakes := forall₂_of_all (hattributes.imp fun ms bs h => h.takes) hnarrow
    rw [hflat]
    exact takes_class htable ⟨h.name, h.super, h.interfaces, h.fields, h.methods,
      lists, k, hk, hcount, hflat, htakes⟩
  · have hheader := reads_header htable h.name h.super h.interfaces
    have htold := demands_counted (reads_members h.fields h.methods hcount) hk
      (hattributes.imp fun ms bs h => h.demands)
      (demands_tellLast (Collector.visitor none) .finish)
    rw [p.bytes_behind]
    refine demands_read hheader ?_
    exact ((demands_tell _ _).bind (u := fun _ => _) htold).imp And.right

/-- Bytes that tell a header, markers and the finish are read as this header and these markers, the
first of each type. -/
theorem read_of_takes {o : Options} {bytes : Bytes} {header : Header} {ms : List (Marker Unit)}
    (h : Takes (tellClass o (Collector.visitor none)) bytes
      (andAlso ((Collector.visitor none).visit (.header header))
        (andAlso (filing ms) ((Collector.visitor none).visit .finish)))) :
    ClassRecord.read bytes none o =
      .ok ⟨header, MarkerOf.firstOfEachType (ms.map MarkerOf.rebuilt), false⟩ := by
  -- The collector starts with nothing open, so markers are filed under their types.
  have hheader : (Collector.visitor none).visit (.header header) {} =
    (true, { header := some header }) := rfl
  have hfiled := filing_closed ms (c := { header := some header }) rfl
  have hrun := h [] {} _ (by
    rw [andAlso_of_goes hheader, andAlso_of_goes hfiled]; rfl)
  rw [List.append_nil] at hrun
  unfold ClassRecord.read decode
  rw [hrun]
  simp [MarkerOf.firstOfEachType, Entries.firsts, List.foldl_map]

/-- A walk that is read without a target has answered. -/
theorem answers_of_read {record : ClassRecord} (h : ClassRecord.read bytes none o = .ok record) :
    ∃ rest c, tellClass o (Collector.visitor none) bytes {} = (.ok (), rest, c) := by
  obtain ⟨es, answer, rest, htells, hscript⟩ := exists_script o bytes
  have hreading := reading htells hscript none
  rw [h] at hreading
  cases hreading with
  | whole ha hgoes _ =>
    subst ha
    exact ⟨rest, _, (htells _ _ _ _).1 hgoes⟩
  | reached _ htarget => cases htarget

/-- The bytes of a class that can be written are accepted exactly if the markers told are narrow. -/
theorem acceptsIff_encode (hc : c.Fitting o) (h : c.encode = .ok bytes) :
    AcceptsIff (tellClass o (Collector.visitor none)) bytes (AllNarrow (c.told o))
      (andAlso ((Collector.visitor none).visit (.header c.dotted.header))
        (andAlso (filing (c.told o)) ((Collector.visitor none).visit .finish))) := by
  rw [← c.encode_dotted] at h
  obtain ⟨cs, table, _, htable, ⟨p, rfl, hp⟩, rfl⟩ := encode_yields (yields_body_acceptsIff hc) h
  exact acceptsIff_class htable hp

theorem narrow_of_read {record : ClassRecord} (hc : c.Fitting o) (h : c.encode = .ok bytes)
    (hread : ClassRecord.read bytes none o = .ok record) : AllNarrow (c.told o) := by
  obtain ⟨rest, s, hrun⟩ := answers_of_read hread
  rw [← List.append_nil bytes] at hrun
  exact ((acceptsIff_encode hc h).demands _ _ _ _ _ hrun).2

/-- A class that can be written is read back exactly if every character inside the markers that are
told is one unit of 16 bits. -/
theorem read_encode_iff (hc : c.Fitting o) (h : c.encode = .ok bytes) :
    (∃ record, ClassRecord.read bytes none o = .ok record) ↔
      ∀ m ∈ c.told o, (Value.marker m).Narrow := by
  constructor
  · rintro ⟨record, hread⟩
    exact narrow_of_read hc h hread
  · intro hnarrow
    exact ⟨_, read_of_takes ((acceptsIff_encode hc h).takes hnarrow)⟩

/-! ### A class with a character of two units -/

/-- A class with one marker whose property is a character beyond 16 bits. -/
def wideClass : ClassSpec where
  name := "demo.C"
  visible := [⟨"demo.M", ⟨[("c", .scalar (.char '😀'))], []⟩, none⟩]

theorem wideClass_encodes : ∃ bytes, wideClass.encode = .ok bytes := by
  have fits : ∀ s ∈ ["demo/C", "java/lang/Object", "Ldemo/M;", "c", "RuntimeVisibleAnnotations"],
      (Text.ModifiedUtf8.encode s).length < 65536 := by decide
  have hC : Descriptor.toInternal "demo.C" = "demo/C" := by decide
  have hObject : Descriptor.toInternal "java.lang.Object" = "java/lang/Object" := by decide
  have hM : Descriptor.ofName "demo.M" = "Ldemo/M;" := by decide
  simp only [List.forall_mem_cons] at fits
  simp [ClassSpec.encode, encodeBody, wideClass, Interning.className, Interning.text,
    Interning.constant, Interning.typeName, TableBuilder.intern, TableBuilder.checkLength,
    TableBuilder.empty, Constant.slots, Constant.isWide, encodeInterfaces, encodeMembers,
    encodeCount, markerAttribute, visibleMarkers, encodeMarker, encodeProperties_eq, Layered.size,
    Layered.resolved_single, encodeValue, encodeScalar, encodeAttribute,
    encodeTagged, BigEndian.u16, BigEndian.length_encode, StateT.run, run_bind, run_map,
    ok_bind, fits, hC, hObject, hM]

theorem wideClass_fitting : wideClass.Fitting {} := by
  constructor
  · intro a ha
    cases ha
  · intro m hm
    rw [show wideClass.visible ++ wideClass.invisible = wideClass.visible from rfl] at hm
    cases List.mem_singleton.1 hm
    refine .marker ⟨by decide, ?_⟩ (by rfl) ?_
    · intro l hl
      cases List.mem_singleton.1 hl
      simp [Entries.Distinct, Entries.keys]
    · rw [Layered.resolved_single]
      simp only [List.forall_mem_cons, List.not_mem_nil, IsEmpty.forall_iff, implies_true, and_true]
      exact .scalar trivial

theorem wideClass_wide : ¬ AllNarrow (wideClass.told {}) := by
  intro h
  obtain _ | _ | ⟨hproperties⟩ := h _ (List.mem_singleton.2 rfl)
  rw [Layered.resolved_single] at hproperties
  obtain ⟨hwide⟩ := hproperties _ (List.mem_singleton.2 rfl)
  have hnumber : ¬ '😀'.toNat < 0x10000 := by decide
  exact hnumber hwide

theorem read_encode_iff_wideClass : ∃ bytes, wideClass.encode = .ok bytes ∧
    ¬ ∃ record, ClassRecord.read bytes none {} = .ok record := by
  obtain ⟨bytes, h⟩ := wideClass_encodes
  refine ⟨bytes, h, ?_⟩
  rw [read_encode_iff wideClass_fitting h]
  exact wideClass_wide

/-- Not every class that can be written is read back. -/
theorem not_read_encode_wideClass : ¬ ∀ (c : ClassSpec) (o : Options) (bytes : Bytes),
    c.Fitting o → c.encode = .ok bytes →
      ∃ record, ClassRecord.read bytes none o = .ok record := by
  intro h
  obtain ⟨bytes, hbytes⟩ := wideClass_encodes
  obtain ⟨record, hread⟩ := h wideClass {} bytes wideClass_fitting hbytes
  exact wideClass_wide (narrow_of_read wideClass_fitting hbytes hread)

end Class

end MarkerIndex.ClassFile
