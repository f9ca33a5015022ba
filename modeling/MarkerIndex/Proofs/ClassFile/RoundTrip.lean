/-
A class descriptor read back: when a class can be written at all, reading its bytes gives its
header and its markers, the visible ones and then, if they are asked for, the invisible ones, the
first of each type staying. The members and the other attributes leave no trace.

The names and constants of the class are interned while the rest is written and looked up in the
complete table while it is read; what every part yields holds in every table that starts with the
slots of its time, and so in the complete one.
-/
import MarkerIndex.Proofs.ClassFile.Parts

namespace MarkerIndex.ClassFile

open Reader Interning Walk

/-! ## What a class says -/

namespace ClassSpec

/-- The header of the class. -/
def header (c : ClassSpec) : Header :=
  ⟨c.minor, c.major, c.flags, c.name, c.super, c.interfaces⟩

/-- The markers that are told. -/
def told (c : ClassSpec) (o : Options) : List (Marker Unit) :=
  c.visible ++ if o.includeInvisible then c.invisible else []

/-- Names of classes have no slashes, no other attribute is named like a marker attribute, and the
markers are portable. -/
structure Portable (c : ClassSpec) (o : Options) : Prop where
  name : '/' ∉ c.name.toList
  super : ∀ super ∈ c.super, '/' ∉ super.toList
  interfaces : ∀ interface ∈ c.interfaces, '/' ∉ interface.toList
  attributes : ∀ a ∈ c.attributes, a.1 ≠ visibleMarkers ∧ a.1 ≠ invisibleMarkers
  markers : ∀ m ∈ c.visible ++ c.invisible, (Value.marker m).Portable o.maxNesting

end ClassSpec

/-! ## The header -/

/-- The index leads to the name of the superclass, or is zero when there is none. -/
def SpellsSuper (t : ConstantTable) (i : UInt16) : Option String → Prop
  | none => i = 0
  | some name => t.className i = .ok name

/-- The superclass is interned in front of what depends on its index. -/
theorem yields_super {super : Option String} {rest : UInt16 → Interning Bytes}
    {Q : ConstantTable → Bytes → Prop} (h : ∀ name ∈ super, '/' ∉ name.toList)
    (hrest : ∀ i, Yields (rest i) fun t bs => SpellsSuper t i super → Q t bs) :
    Yields (match super with
      | none => do rest (← pure 0)
      | some name => do rest (← Interning.className name)) Q := by
  cases super with
  | none => exact Yields.bind (P := fun t i => SpellsSuper t i none) (yields_pure fun t => rfl) hrest
  | some name => exact (yields_className (h name rfl)).bind hrest

theorem reads_header {c : ClassSpec} {cs : List Constant} {table interfaces : Bytes}
    {name super : UInt16} (htable : Reads ConstantTable.read table (.ofConstants cs))
    (hname : (ConstantTable.ofConstants cs).className name = .ok c.name)
    (hsuper : SpellsSuper (.ofConstants cs) super c.super)
    (hinterfaces : SpellsInterfaces (.ofConstants cs) interfaces c.interfaces) :
    Reads readHeader (BigEndian.u32 magic ++ (BigEndian.u16 c.minor ++ (BigEndian.u16 c.major ++
      (table ++ (BigEndian.u16 c.flags ++ (BigEndian.u16 name ++ (BigEndian.u16 super ++
        interfaces))))))) (c.header, .ofConstants cs) := by
  refine (reads_u32 magic).bind ?_
  rw [if_neg (by decide)]
  refine (reads_u16 c.minor).bind ((reads_u16 c.major).bind (htable.bind ?_))
  refine (reads_u16 c.flags).bind ((reads_indexed hname).bind ((reads_u16 super).bind ?_))
  have hend : ∀ super, super = c.super → Reads (do
      let count ← Reader.u16
      let interfaces ← readClassNames (.ofConstants cs) count.toNat []
      return (Header.mk c.minor c.major c.flags c.name super interfaces,
        ConstantTable.ofConstants cs)) interfaces (c.header, .ofConstants cs) := by
    rintro super rfl
    obtain ⟨count, indices, k, rfl, hk, hcount, hindices⟩ := hinterfaces
    refine hcount.bind ((hk ▸ reads_classNames hindices []).map _)
  dsimp only
  -- The slot zero names no class, so only the missing superclass is read from it.
  cases hs : c.super with
  | none =>
    rw [hs] at hsuper
    have hzero : super = 0 := hsuper
    rw [if_pos hzero]
    refine (reads_pure none).bind ?_
    exact hend none hs.symm
  | some superName =>
    rw [hs] at hsuper
    have hne : super ≠ 0 := fun hzero => ConstantTable.className_zero (hzero ▸ hsuper)
    rw [if_neg hne, ← List.nil_append interfaces]
    refine ((reads_ofExcept hsuper).map some).bind ?_
    exact hend (some superName) hs.symm

/-! ## The body -/

/-- The bytes behind the table of constants, part by part. -/
structure BodyParts where
  name : UInt16
  super : UInt16
  interfaces : Bytes
  fields : Bytes
  methods : Bytes
  count : Bytes
  attributes : List Bytes

/-- The parts one after the other. -/
def BodyParts.bytes (c : ClassSpec) (p : BodyParts) : Bytes :=
  BigEndian.u16 c.flags ++ BigEndian.u16 p.name ++ BigEndian.u16 p.super ++ p.interfaces ++ p.fields
    ++ p.methods ++ p.count ++ p.attributes.flatten

/-- The parts spell the class: its names, members to pass over, and attributes that file the
markers that are told. -/
structure SpellsBody (o : Options) (t : ConstantTable) (c : ClassSpec) (p : BodyParts) : Prop where
  name : t.className p.name = .ok c.name
  super : SpellsSuper t p.super c.super
  interfaces : SpellsInterfaces t p.interfaces c.interfaces
  fields : Reads skipMembers p.fields ()
  methods : Reads skipMembers p.methods ()
  attributes : ∃ (lists : List (List (Marker Unit))) (k : UInt16), k.toNat = lists.length ∧
    Reads Reader.u16 p.count k ∧ lists.flatten = c.told o ∧
    List.Forall₂ (fun ms bs => Takes (tellAttribute o (Collector.visitor none) t) bs (filing ms))
      lists p.attributes

/-- An attribute is written only if its length can be. -/
theorem yields_attribute (o : Options) (p : UInt16 × Bytes) :
    Yields (encodeAttribute p.1 p.2) fun t bs => ∀ ms, FilesAttribute o t p ms →
      Takes (tellAttribute o (Collector.visitor none) t) bs (filing ms) := by
  unfold encodeAttribute
  split
  next hlength => exact yields_pure fun t ms hms => takes_attribute hlength hms
  next => exact yields_refuse _

theorem forall₂_trans {α β γ : Type} {R : α → β → Prop} {S : α → γ → Prop} {Q : γ → β → Prop}
    (hQ : ∀ a b c, R a b → S a c → Q c b) {as : List α} {bs : List β} {cs : List γ}
    (hR : List.Forall₂ R as bs) (hS : List.Forall₂ S as cs) : List.Forall₂ Q cs bs := by
  induction hR generalizing cs with
  | nil => cases hS; exact .nil
  | cons hab _ ih => cases hS with
    | cons hac hcs => exact .cons (hQ _ _ _ hab hac) (ih hcs)

theorem told_eq (c : ClassSpec) (o : Options) :
    [] ++ (if (markerVisibility? o visibleMarkers).isSome then c.visible else []) ++
      (if (markerVisibility? o invisibleMarkers).isSome then c.invisible else []) = c.told o := by
  have hv : markerVisibility? o visibleMarkers = some true := if_pos rfl
  have hi : markerVisibility? o invisibleMarkers =
      if o.includeInvisible then some false else none := by
    unfold markerVisibility?
    rw [if_neg (by decide)]
    simp
  rw [hv, hi, ClassSpec.told]
  cases o.includeInvisible <;> simp

/-- The parts spell the names and members of the class, and its attributes are related by `R` to
lists of markers that are together those that are told. -/
structure PartsOf (R : List (Marker Unit) → Bytes → Prop) (o : Options) (t : ConstantTable)
    (c : ClassSpec) (p : BodyParts) : Prop where
  name : t.className p.name = .ok c.name
  super : SpellsSuper t p.super c.super
  interfaces : SpellsInterfaces t p.interfaces c.interfaces
  fields : Reads skipMembers p.fields ()
  methods : Reads skipMembers p.methods ()
  attributes : ∃ (lists : List (List (Marker Unit))) (k : UInt16), k.toNat = lists.length ∧
    Reads Reader.u16 p.count k ∧ lists.flatten = c.told o ∧ List.Forall₂ R lists p.attributes

/-- The attributes are related by `D` to lists of markers that are together `ms`. -/
def Listed (D : UInt16 × Bytes → List (Marker Unit) → Prop) (ms : List (Marker Unit))
    (attributes : List (UInt16 × Bytes)) : Prop :=
  ∃ lists : List (List (Marker Unit)), List.Forall₂ D attributes lists ∧ lists.flatten = ms

/-- What is written behind the table is put together from its attributes, however these and their
markers are related. -/
theorem yields_parts {c : ClassSpec} {o : Options}
    {D : ConstantTable → UInt16 × Bytes → List (Marker Unit) → Prop}
    {R : ConstantTable → List (Marker Unit) → Bytes → Prop} (hname : '/' ∉ c.name.toList)
    (hsuper : ∀ super ∈ c.super, '/' ∉ super.toList)
    (hinterfaces : ∀ interface ∈ c.interfaces, '/' ∉ interface.toList)
    (hplain : Yields (c.attributes.mapM fun (name, body) => return (← Interning.text name, body))
      fun t => Listed (D t) [])
    (hvisible : Yields (markerAttribute visibleMarkers c.visible) fun t =>
      Listed (D t) (if (markerVisibility? o visibleMarkers).isSome then c.visible else []))
    (hinvisible : Yields (markerAttribute invisibleMarkers c.invisible) fun t =>
      Listed (D t) (if (markerVisibility? o invisibleMarkers).isSome then c.invisible else []))
    (hattribute : ∀ p, Yields (encodeAttribute p.1 p.2) fun t bs => ∀ ms, D t p ms → R t ms bs) :
    Yields (encodeBody c) fun t body =>
      ∃ p : BodyParts, body = p.bytes c ∧ PartsOf (R t) o t c p := by
  refine (yields_className hname).bind fun name => ?_
  refine yields_super hsuper fun super => ?_
  refine (yields_interfaces hinterfaces).bind fun interfaces => ?_
  refine (yields_members c.fields).bind fun fields => ?_
  refine (yields_members c.methods).bind fun methods => ?_
  refine hplain.bind fun plain => hvisible.bind fun visible => hinvisible.bind fun invisible => ?_
  refine (yields_count _ _).bind fun count => ?_
  refine (yields_mapM fun p _ => hattribute p).bind fun bodies => ?_
  refine yields_pure fun t hbodies hcount hinvis hvis hplain hmethods hfields hinterfaces hsuper
    hname => ?_
  refine ⟨⟨name, super, interfaces, fields, methods, count, bodies⟩, rfl, hname, hsuper,
    hinterfaces, hfields, hmethods, ?_⟩
  obtain ⟨ps, hps, hpsFlat⟩ := hplain
  obtain ⟨vs, hvs, hvsFlat⟩ := hvis
  obtain ⟨is, his, hisFlat⟩ := hinvis
  obtain ⟨k, hk, hread⟩ := hcount
  -- Each attribute has a list of its own, so the markers told are these lists in turn.
  have hlists := List.rel_append (List.rel_append hps hvs) his
  refine ⟨_, k, hk.trans hlists.length_eq, hread, ?_, forall₂_trans (fun p bs ms hp => hp ms)
    hbodies hlists⟩
  rw [List.flatten_append, List.flatten_append, hpsFlat, hvsFlat, hisFlat]
  exact told_eq c o

/-- What is written behind the table spells the class. -/
theorem yields_body {c : ClassSpec} {o : Options} (h : c.Portable o) :
    Yields (encodeBody c) fun t body => ∃ p : BodyParts, body = p.bytes c ∧ SpellsBody o t c p := by
  have hvisible : ∀ m ∈ c.visible, (Value.marker m).Portable o.maxNesting :=
    fun m hm => h.markers m (List.mem_append_left _ hm)
  have hinvisible : ∀ m ∈ c.invisible, (Value.marker m).Portable o.maxNesting :=
    fun m hm => h.markers m (List.mem_append_right _ hm)
  have hplain := (yields_plainAttributes (o := o) h.attributes).imp
    (Q := fun t => Listed (FilesAttribute o t) []) fun t plain hplain => ⟨_, hplain, by simp⟩
  have hparts := yields_parts h.name h.super h.interfaces hplain (yields_markerAttribute hvisible)
    (yields_markerAttribute hinvisible) (yields_attribute o)
  refine hparts.imp fun t body ⟨p, hbody, hp⟩ => ⟨p, hbody, ?_⟩
  exact ⟨hp.name, hp.super, hp.interfaces, hp.fields, hp.methods, hp.attributes⟩

/-! ## The class -/

theorem takes_tellLast {σ : Type} (v : Visitor σ) (e : Event) :
    Takes (tellLast v e) [] (v.visit e) := by
  intro rest s s' h
  unfold tellLast; rw [h]; rfl

theorem eachOf_filing (lists : List (List (Marker Unit))) :
    eachOf filing lists = filing lists.flatten := by
  induction lists with
  | nil => rfl
  | cons ms lists ih =>
    rw [eachOf, ih, List.flatten_cons, filing, filing, filing, eachOf_append]

/-- With nothing open, filing files under the types, the first of each type staying. -/
theorem filing_closed (ms : List (Marker Unit)) {c : Collector} (h : c.frames = []) :
    filing ms c = (true, { c with filed :=
      (ms.map MarkerOf.rebuilt).foldl (fun es m => Entries.insertNew es m.type m) c.filed }) := by
  unfold filing
  induction ms generalizing c with
  | nil => rfl
  | cons m ms ih =>
    have hfile : c.file m.rebuilt none =
        (true, { c with filed := Entries.insertNew c.filed m.rebuilt.type m.rebuilt }) := by
      unfold Collector.file; rw [h]; rfl
    rw [eachOf, andAlso_of_goes hfile]
    exact ih h

/-- The bytes of a class are those of its header, and behind them those of its members and
attributes. -/
theorem BodyParts.bytes_behind (c : ClassSpec) (p : BodyParts) (table : Bytes) :
    BigEndian.u32 magic ++ BigEndian.u16 c.minor ++ BigEndian.u16 c.major ++ table ++ p.bytes c =
      BigEndian.u32 magic ++ (BigEndian.u16 c.minor ++ (BigEndian.u16 c.major ++
        (table ++ (BigEndian.u16 c.flags ++ (BigEndian.u16 p.name ++ (BigEndian.u16 p.super ++
          p.interfaces)))))) ++ (p.fields ++ (p.methods ++ p.count) ++ p.attributes.flatten) := by
  simp only [BodyParts.bytes, List.append_assoc]

/-- The members are passed over, and the number of attributes is read. -/
theorem reads_members {fields methods count : Bytes} {k : UInt16}
    (hfields : Reads skipMembers fields ()) (hmethods : Reads skipMembers methods ())
    (hcount : Reads Reader.u16 count k) :
    Reads (do
      skipMembers
      skipMembers
      Reader.u16) (fields ++ (methods ++ count)) k := hfields.bind (hmethods.bind hcount)

/-- The bytes of a class, told to the collector: its header, its markers and the finish. -/
theorem takes_class {c : ClassSpec} {o : Options} {cs : List Constant} {table : Bytes}
    {p : BodyParts} (htable : Reads ConstantTable.read table (.ofConstants cs))
    (h : SpellsBody o (.ofConstants cs) c p) :
    Takes (tellClass o (Collector.visitor none)) (BigEndian.u32 magic ++ BigEndian.u16 c.minor ++
      BigEndian.u16 c.major ++ table ++ p.bytes c)
      (andAlso ((Collector.visitor none).visit (.header c.header))
        (andAlso (filing (c.told o)) ((Collector.visitor none).visit .finish))) := by
  obtain ⟨lists, k, hk, hcount, hflat, hattributes⟩ := h.attributes
  have hheader := reads_header htable h.name h.super h.interfaces
  have htold := takes_counted (reads_members h.fields h.methods hcount) hk hattributes
    (takes_tellLast (Collector.visitor none) .finish)
  rw [eachOf_filing, hflat] at htold
  rw [p.bytes_behind]
  exact takes_read hheader ((takes_tell _ _).bind htold)

/-- The bytes that are written are those of the table that interning ended with, and of what the
body yields for this table. -/
theorem encode_yields {c : ClassSpec} {bytes : Bytes} {P : ConstantTable → Bytes → Prop}
    (hP : Yields (encodeBody c) P) (h : c.encode = .ok bytes) :
    ∃ cs table body, Reads ConstantTable.read table (.ofConstants cs) ∧ P (.ofConstants cs) body ∧
      bytes = BigEndian.u32 magic ++ BigEndian.u16 c.minor ++ BigEndian.u16 c.major ++ table ++
        body := by
  unfold ClassSpec.encode at h
  cases hbody : (encodeBody c).run .empty with
  | error e => rw [hbody] at h; cases h
  | ok r =>
    obtain ⟨body, t⟩ := r
    rw [hbody] at h
    cases h
    obtain ⟨hv, _, hyields⟩ := hP _ _ _ TableBuilder.empty_valid hbody
    have hslots : t.next = (ConstantTable.layout t.constants.toList).length + 1 := hv.next
    have hbound := hv.bound
    have htable := ConstantTable.reads_table hv.fits (by omega)
    rw [← hslots] at htable
    refine ⟨_, _, body, htable, hyields (.ofConstants t.constants.toList) (List.prefix_refl _), ?_⟩
    simp only [TableBuilder.encode, List.append_assoc]

/-- The bytes of a portable class are those of a table and of parts that spell the class. -/
theorem encode_spells {c : ClassSpec} {o : Options} {bytes : Bytes} (hc : c.Portable o)
    (h : c.encode = .ok bytes) : ∃ cs table p, Reads ConstantTable.read table (.ofConstants cs) ∧
      SpellsBody o (.ofConstants cs) c p ∧ bytes = BigEndian.u32 magic ++ BigEndian.u16 c.minor ++
        BigEndian.u16 c.major ++ table ++ p.bytes c := by
  obtain ⟨cs, table, _, htable, ⟨p, rfl, hp⟩, hbytes⟩ := encode_yields (yields_body hc) h
  exact ⟨cs, table, p, htable, hp, hbytes⟩

/-- Reading the bytes of a class gives its header and the first marker of each type among those
that are told, each the same as the one that was written up to empty lists of markers, with its
properties in the same order. -/
theorem read_encode {c : ClassSpec} {o : Options} {bytes : Bytes} (hc : c.Portable o)
    (h : c.encode = .ok bytes) :
    ClassRecord.read bytes none o = .ok ⟨c.header,
        MarkerOf.firstOfEachType ((c.told o).map MarkerOf.rebuilt), false⟩ ∧
      ∀ m ∈ c.told o, m.rebuilt.same m.emptiesAsArrays = true ∧
        m.rebuilt.properties.keys = m.properties.keys := by
  constructor
  · obtain ⟨cs, table, p, htable, hp, rfl⟩ := encode_spells hc h
    have htakes := takes_class htable hp
    -- The collector starts with nothing open, so markers are filed under their types.
    have hheader : (Collector.visitor none).visit (.header c.header) {} =
      (true, { header := some c.header }) := rfl
    have hfiled := filing_closed (c.told o) (c := { header := some c.header }) rfl
    have hrun := htakes [] {} _ (by
      rw [andAlso_of_goes hheader, andAlso_of_goes hfiled]; rfl)
    rw [List.append_nil] at hrun
    unfold ClassRecord.read decode
    rw [hrun]
    simp [MarkerOf.firstOfEachType, Entries.firsts, List.foldl_map]
  · intro m hm
    have hmem : m ∈ c.visible ++ c.invisible := by
      unfold ClassSpec.told at hm
      split at hm
      · exact hm
      · exact List.mem_append_left _ (by simpa using hm)
    have := (hc.markers m hmem).rebuilt_same
    rw [Value.rebuilt_marker, Value.emptiesAsArrays_marker, Value.same_marker] at this
    exact ⟨this, Properties.keys_rebuilt m.properties⟩

/-! ### A class with one marker -/

/-- A class with a marker that has an empty list of markers and a number. -/
def sampleClass : ClassSpec where
  name := "A"
  super := none
  visible := [⟨"M", ⟨[("x", .markers []), ("y", .scalar (.int 7))], []⟩, none⟩]

theorem sampleClass_encodes : ∃ bytes, sampleClass.encode = .ok bytes := by
  have fits : ∀ s ∈ ["A", "LM;", "x", "y", "RuntimeVisibleAnnotations"],
      (Text.ModifiedUtf8.encode s).length < 65536 := by decide
  have hA : Descriptor.toInternal "A" = "A" := by decide
  have hM : Descriptor.ofName "M" = "LM;" := by decide
  simp only [List.forall_mem_cons] at fits
  simp [ClassSpec.encode, encodeBody, sampleClass, Interning.className, Interning.text,
    Interning.constant, Interning.typeName, TableBuilder.intern, TableBuilder.checkLength,
    TableBuilder.empty, Constant.slots, Constant.isWide, encodeInterfaces, encodeMembers,
    encodeCount, markerAttribute, visibleMarkers, encodeMarker, encodeProperties_eq, Layered.size,
    Layered.resolved_single, encodeValue_markers, encodeValue, encodeScalar, encodeAttribute,
    encodeTagged, BigEndian.u16, BigEndian.length_encode, StateT.run, run_bind, run_map,
    ok_bind, fits, hA, hM]

theorem sampleClass_portable : sampleClass.Portable {} := by
  refine ⟨by decide, by simp [sampleClass], by simp [sampleClass], by simp [sampleClass], ?_⟩
  intro m hm
  rw [show sampleClass.visible ++ sampleClass.invisible = sampleClass.visible from rfl] at hm
  cases List.mem_singleton.1 hm
  refine .marker ⟨by decide, ?_⟩ rfl ?_
  · intro l hl
    cases List.mem_singleton.1 hl
    simp [Entries.Distinct, Entries.keys]
  · rw [Layered.resolved_single]
    simp only [List.forall_mem_cons, List.not_mem_nil, IsEmpty.forall_iff, implies_true, and_true]
    exact ⟨.markers (by simp), .scalar trivial⟩

theorem read_encode_sampleClass : ∃ bytes, sampleClass.encode = .ok bytes ∧
    ClassRecord.read bytes none {} = .ok ⟨sampleClass.header,
      [("M", ⟨"M", ⟨[("x", .array []), ("y", .scalar (.int 7))], []⟩, none⟩)], false⟩ := by
  obtain ⟨bytes, h⟩ := sampleClass_encodes
  refine ⟨bytes, h, (read_encode sampleClass_portable h).1.trans ?_⟩
  have hx : (Value.markers []).rebuilt = .array [] := by rw [Value.rebuilt_markers]; rfl
  simp [sampleClass, ClassSpec.told, MarkerOf.rebuilt, Properties.rebuilt_eq,
    Layered.resolved_single, Entries.mapValues, hx, MarkerOf.firstOfEachType, Entries.firsts,
    Entries.insertNew, Entries.has, Entries.get?]

end MarkerIndex.ClassFile
