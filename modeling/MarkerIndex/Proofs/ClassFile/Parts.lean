/-
The parts of a class descriptor written and read back: the names in its header, the tables of
members that are passed over, and its attributes. An attribute files a list of markers: none when
its name is not that of a marker attribute that is told.
-/
import MarkerIndex.Proofs.ClassFile.Values

namespace MarkerIndex.ClassFile

open Reader Interning Walk

/-! ## Names -/

theorem reads_classNames {t : ConstantTable} {names : List String} {indices : List Bytes}
    (h : List.Forall₂ (fun name bs => Reads (readIndexed t.className) bs name) names indices)
    (done : List String) :
    Reads (readClassNames t names.length done) indices.flatten (done.reverse ++ names) := by
  induction h generalizing done with
  | nil => rw [List.append_nil]; exact reads_pure _
  | @cons name bs names indices hname _ ih =>
    refine hname.bind ?_
    have := ih (name :: done)
    rwa [List.reverse_cons, List.append_assoc] at this

theorem yields_nameIndex {name : String} (h : '/' ∉ name.toList) :
    Yields (BigEndian.u16 <$> Interning.className name) fun t bs =>
      Reads (readIndexed t.className) bs name :=
  (yields_className h).map fun _ _ => reads_indexed

/-- The bytes of the interfaces: a count, and as many indices that read as their names. -/
def SpellsInterfaces (t : ConstantTable) (bs : Bytes) (names : List String) : Prop :=
  ∃ count indices, ∃ k : UInt16, bs = count ++ List.flatten indices ∧ k.toNat = names.length ∧
    Reads Reader.u16 count k ∧
    List.Forall₂ (fun name bs => Reads (readIndexed t.className) bs name) names indices

theorem yields_interfaces {names : List String} (h : ∀ name ∈ names, '/' ∉ name.toList) :
    Yields (encodeInterfaces names) fun t bs => SpellsInterfaces t bs names := by
  refine yields_counted (fun name hname => yields_nameIndex (h name hname)) ?_
  intro t count indices k hk hread hindices
  exact ⟨count, indices, k, rfl, hk, hread, hindices⟩

/-! ## Members -/

theorem reads_times {α : Type} {r : Reader Unit} {xs : List α} {bodies : List Bytes}
    (h : List.Forall₂ (fun _ bs => Reads r bs ()) xs bodies) :
    Reads (readTimes xs.length r) bodies.flatten () := by
  induction h with
  | nil => exact reads_pure ()
  | cons hr _ ih => exact hr.bind ih

theorem reads_member (name descriptor : UInt16) :
    Reads skipMember (BigEndian.u16 1 ++ BigEndian.u16 name ++ BigEndian.u16 descriptor ++
      BigEndian.u16 0) () := by
  have hskip := reads_skip (BigEndian.u16 1 ++ BigEndian.u16 name ++ BigEndian.u16 descriptor)
  have hlength : (BigEndian.u16 1 ++ BigEndian.u16 name ++ BigEndian.u16 descriptor).length = 6 := by
    simp [BigEndian.u16, BigEndian.length_encode]
  rw [hlength] at hskip
  exact hskip.bind ((reads_u16 0).bind_nil (reads_pure ()))

/-- Members are passed over whatever they are. -/
theorem yields_members (members : List (String × String)) :
    Yields (encodeMembers members) fun _ bs => Reads skipMembers bs () := by
  refine yields_counted (P := fun _ _ bs => Reads skipMember bs ()) (fun m _ => ?_) ?_
  · refine (yields_text m.1).bind fun i => (yields_text m.2).bind fun j => ?_
    exact yields_pure fun t _ _ => reads_member i j
  · intro t count bodies k hk hread hbodies
    refine hread.bind ?_
    rw [hk]
    exact reads_times hbodies

/-! ## Attributes -/

/-- The rebuilt markers filed one after the other. -/
def filing (ms : List (Marker Unit)) : Collector → Bool × Collector :=
  eachOf (fun m => Collector.file m.rebuilt none) ms

/-- The attribute of this name and body files these markers. -/
def FilesAttribute (o : Options) (t : ConstantTable) (p : UInt16 × Bytes)
    (ms : List (Marker Unit)) : Prop :=
  ∃ name, t.utf8 p.1 = .ok name ∧
    match markerVisibility? o name with
    | none => ms = []
    | some visible => Takes (within p.2
        (tellMarkers (Collector.visitor none) t visible o.maxNesting name)) [] (filing ms)

theorem takes_attribute {o : Options} {t : ConstantTable} {i : UInt16} {body : Bytes}
    {ms : List (Marker Unit)} (hlength : body.length < 4294967296)
    (h : FilesAttribute o t (i, body) ms) :
    Takes (tellAttribute o (Collector.visitor none) t)
      (BigEndian.u16 i ++ BigEndian.encode 4 body.length ++ body) (filing ms) := by
  obtain ⟨name, hname, h⟩ := h
  have hread : Reads (do
      let name ← readIndexed t.utf8
      let length ← Reader.u32
      return (name, ← Reader.take length.toNat))
      (BigEndian.u16 i ++ (BigEndian.encode 4 body.length ++ body)) (name, body) := by
    refine (reads_indexed hname).bind ((reads_length hlength).bind ?_)
    rw [UInt32.toNat_ofNat_of_lt' hlength]
    exact (reads_take body).map fun body => (name, body)
  rw [List.append_assoc]
  refine takes_read_done hread ?_
  dsimp only at h ⊢
  split
  next hv => rw [hv] at h; subst h; exact takes_done
  next visible hv => rw [hv] at h; exact h

/-- The body of a marker attribute files its markers. -/
theorem takes_markers {t : ConstantTable} {visible : Bool} {limit : Nat} {name : String}
    {count : Bytes} {k : UInt16} {ms : List (Marker Unit)} {bodies : List Bytes}
    (hk : k.toNat = ms.length) (hcount : Reads Reader.u16 count k)
    (h : List.Forall₂ (fun m bs => Takes (markerIn (Collector.visitor none) t visible limit limit
      none) bs (Collector.file m.rebuilt none)) ms bodies) :
    Takes (within (count ++ bodies.flatten)
      (tellMarkers (Collector.visitor none) t visible limit name)) [] (filing ms) := by
  have hall : Takes (Walk.read Reader.u16 >>= fun count => times count.toNat
      (markerIn (Collector.visitor none) t visible limit limit none)) (count ++ bodies.flatten)
      (filing ms) := by
    refine takes_read hcount ?_
    rw [hk]; exact takes_times h
  have := takes_within (.malformed (.trailingData name)) hall
  rwa [Walk.bind_bind] at this

/-- The attribute of a list of markers, when it is there, files the markers that are told. -/
theorem yields_markerAttribute {o : Options} {name : String} {ms : List (Marker Unit)}
    (h : ∀ m ∈ ms, (Value.marker m).Portable o.maxNesting) :
    Yields (markerAttribute name ms) fun t attributes =>
      ∃ lists : List (List (Marker Unit)), List.Forall₂ (FilesAttribute o t) attributes lists ∧
        lists.flatten = if (markerVisibility? o name).isSome then ms else [] := by
  unfold markerAttribute
  split
  next he =>
    refine yields_pure fun t => ⟨[], .nil, ?_⟩
    rw [List.isEmpty_iff.1 he]; split <;> rfl
  next =>
    refine (yields_count _ _).bind fun count => ?_
    refine (yields_mapM fun m hm => yields_topMarker (h m hm)).bind fun bodies => ?_
    refine (yields_text name).bind fun i => ?_
    refine yields_pure fun t hi hbodies hcount => ?_
    obtain ⟨k, hk, hread⟩ := hcount
    -- The body of an attribute that is not told is never read.
    cases hv : markerVisibility? o name with
    | none => exact ⟨[[]], .cons ⟨name, hi, by rw [hv]⟩ .nil, rfl⟩
    | some visible =>
      refine ⟨[ms], .cons ⟨name, hi, ?_⟩ .nil, by simp⟩
      rw [hv]
      exact takes_markers hk hread (hbodies.imp fun m bs hm => hm visible o.maxNesting)

/-- An attribute of another name files nothing. -/
theorem yields_plainAttributes {o : Options} {attributes : List (String × Bytes)}
    (h : ∀ a ∈ attributes, a.1 ≠ visibleMarkers ∧ a.1 ≠ invisibleMarkers) :
    Yields (attributes.mapM fun (name, body) => return (← Interning.text name, body))
      fun t plain => List.Forall₂ (FilesAttribute o t) plain (attributes.map fun _ => []) := by
  have hone : ∀ a ∈ attributes, Yields (do return (← Interning.text a.1, a.2)) fun t p =>
      FilesAttribute o t p [] := by
    intro a ha
    refine (yields_text a.1).bind fun i => yields_pure fun t hi => ⟨a.1, hi, ?_⟩
    have hv : markerVisibility? o a.1 = none := by
      unfold markerVisibility?
      rw [if_neg (h a ha).1, if_neg fun hc => (h a ha).2 hc.1]
    rw [hv]
  refine (yields_mapM hone).imp fun t plain hplain => ?_
  rw [List.forall₂_map_right_iff]
  exact hplain.flip

end MarkerIndex.ClassFile
