/-
Tables of members. What is read from a host type is kept in tables that have one entry for each
member, however the members were described and in whichever order they were met. An entry of markers
holds at most one marker of each type, each on the member of the entry; an entry of parameters holds
one list for each parameter of its member, with the first marker of each type in it.
-/
import MarkerIndex.Host.Findings
import MarkerIndex.Proofs.Host.Attribution

namespace MarkerIndex.Host

/-! ## One entry for each member -/

namespace MemberTable

variable {μ κ β : Type} [Identified μ κ] [DecidableEq κ] {t : MemberTable μ β} {m : μ} {data : β}

/-- No member has two entries. -/
def Distinct (t : MemberTable μ β) : Prop := (t.map fun e => identity e.1).Nodup

theorem has_iff : t.has m = true ↔ identity m ∈ t.map fun e => identity e.1 := by
  simp [has, isSame]

/-- In a table without repetitions the data of a member are those of its one entry. -/
theorem get?_eq_some_iff (h : t.Distinct) :
    t.get? m = some data ↔ ∃ e ∈ t, identity e.1 = identity m ∧ e.2 = data := by
  rw [get?, Option.map_eq_some_iff]
  constructor
  · rintro ⟨e, hfound, hdata⟩
    exact ⟨e, List.mem_of_find?_eq_some hfound, by simpa [isSame] using List.find?_some hfound, hdata⟩
  · rintro ⟨e, he, hidentity, hdata⟩
    obtain ⟨d, hfound⟩ := Option.isSome_iff_exists.1
      (List.find?_isSome.2 ⟨e, he, by simpa [isSame] using hidentity⟩ :
        (t.find? fun e => isSame e.1 m).isSome = true)
    have hd : identity d.1 = identity m := by simpa [isSame] using List.find?_some hfound
    have hsame : d = e :=
      List.inj_on_of_nodup_map h (List.mem_of_find?_eq_some hfound) he (hd.trans hidentity.symm)
    exact ⟨d, hfound, hsame ▸ hdata⟩

theorem identities_insert (t : MemberTable μ β) (m : μ) (data : β) :
    ((t.insert m data).map fun e => identity e.1) =
      if t.has m then t.map fun e => identity e.1
      else (t.map fun e => identity e.1) ++ [identity m] := by
  induction t with
  | nil => rfl
  | cons e t ih =>
    by_cases he : isSame e.1 m = true
    · simp [insert, has, he]
    · have hhas : has (e :: t) m = has t m := by simp [has, he]
      rw [insert, if_neg he, List.map_cons, ih, hhas]
      split <;> rfl

theorem Distinct.snoc (h : t.Distinct) (hnew : ¬ t.has m = true) :
    ((t.map fun e => identity e.1) ++ [identity m]).Nodup := by
  refine List.nodup_append.2 ⟨h, List.nodup_singleton _, ?_⟩
  rintro k hk _ hm rfl
  rw [List.mem_singleton.1 hm] at hk
  exact hnew (has_iff.2 hk)

theorem Distinct.insertNew (h : t.Distinct) (m : μ) (data : β) : (t.insertNew m data).Distinct := by
  unfold MemberTable.insertNew
  split
  next => exact h
  next hnew =>
    rw [Distinct, List.map_append]
    exact h.snoc hnew

theorem Distinct.insert (h : t.Distinct) (m : μ) (data : β) : (t.insert m data).Distinct := by
  rw [Distinct, identities_insert]
  split
  next => exact h
  next hnew => exact h.snoc hnew

theorem mem_insertNew {e : μ × β} (h : e ∈ t.insertNew m data) : e ∈ t ∨ e = (m, data) := by
  unfold insertNew at h
  split at h
  next => exact .inl h
  next => simpa using h

/-- An entry is as it was, or it is that of the member and has the new data. -/
theorem mem_insert {e : μ × β} (h : e ∈ t.insert m data) :
    e ∈ t ∨ identity e.1 = identity m ∧ e.2 = data := by
  induction t with
  | nil =>
    rw [List.mem_singleton.1 h]
    exact .inr ⟨rfl, rfl⟩
  | cons d t ih =>
    rw [insert] at h
    split at h
    next hd =>
      rcases List.mem_cons.1 h with rfl | h
      · exact .inr ⟨by simpa [isSame] using hd, rfl⟩
      · exact .inl (List.mem_cons_of_mem _ h)
    next =>
      rcases List.mem_cons.1 h with rfl | h
      · exact .inl List.mem_cons_self
      · exact (ih h).imp_left (List.mem_cons_of_mem _)

/-- The entries of a scan are those of marked members, with their data. -/
theorem scan_spec (members : List μ) (marked : μ → Bool) (data : μ → β) :
    (scan members marked data).Distinct ∧
      ∀ e ∈ scan members marked data, e.1 ∈ members ∧ marked e.1 = true ∧ e.2 = data e.1 := by
  -- On the members in turn: what is in the table so far is what the scan says.
  refine List.foldlRecOn (motive := fun t : MemberTable μ β => t.Distinct ∧
    ∀ e ∈ t, e.1 ∈ members ∧ marked e.1 = true ∧ e.2 = data e.1) (members.filter marked) _
    ⟨List.nodup_nil, by simp⟩ ?_
  rintro t ⟨hdistinct, ht⟩ m hm
  refine ⟨hdistinct.insertNew m (data m), fun e he => ?_⟩
  rcases mem_insertNew he with he | rfl
  · exact ht e he
  · obtain ⟨hmember, hmarked⟩ := List.mem_filter.1 hm
    exact ⟨hmember, hmarked, rfl⟩

end MemberTable

/-! ## Markers on a member -/

theorem nodup_types_attach {ε : Type} (markers : List (Marker Unit)) (element : ε) :
    ((attach markers element).map (·.type)).Nodup :=
  MarkerOf.nodup_types_firstOfEachType _

theorem element_attach {ε : Type} {markers : List (Marker Unit)} {element : ε} {m : Marker ε}
    (h : m ∈ attach markers element) : m.element = some element := by
  obtain ⟨e, he, rfl⟩ := List.mem_map.1 h
  obtain ⟨d, -, hd⟩ := List.mem_map.1 (MarkerOf.mem_firstOfEachType _ he).1
  rw [← hd]
  rfl

theorem mem_types_attach {ε : Type} {markers : List (Marker Unit)} {element : ε} {type : String} :
    type ∈ (attach markers element).map (·.type) ↔ type ∈ markers.map (·.type) := by
  rw [attach, MarkerOf.mem_types_firstOfEachType, List.map_map]
  rfl

namespace MemberTable

variable {μ κ : Type} [Identified μ κ] [DecidableEq κ]

/-- Each member has one list, with at most one marker of each type, and each marker in it is on the
member. -/
structure Attributed (t : MemberTable μ (List (Marker μ))) : Prop where
  distinct : t.Distinct
  types : ∀ e ∈ t, (e.2.map (·.type)).Nodup
  elements : ∀ e ∈ t, ∀ m ∈ e.2, m.element.map identity = some (identity e.1)

theorem attributed_scan (members : List μ) (marked : μ → Bool) (markers : μ → List (Marker Unit)) :
    (scan members marked fun m => attach (markers m) m).Attributed := by
  obtain ⟨hdistinct, hentries⟩ := scan_spec members marked fun m => attach (markers m) m
  refine ⟨hdistinct, fun e he => ?_, fun e he m hm => ?_⟩
  · rw [(hentries e he).2.2]
    exact nodup_types_attach _ _
  · rw [(hentries e he).2.2] at hm
    rw [element_attach hm]
    rfl

/-- A leaf may describe a member that has an entry already: the entry then keeps its description and
takes the markers of the leaf. -/
theorem attributed_resolve (rule : OverrideRule) (chain : List TypeDecl) :
    (rule.resolve chain).Attributed := by
  unfold OverrideRule.resolve
  refine List.foldlRecOn _ _ ⟨List.nodup_nil, by simp, by simp⟩ ?_
  rintro t ⟨hdistinct, htypes, helements⟩ leaf -
  dsimp only
  split
  next => exact ⟨hdistinct, htypes, helements⟩
  next =>
    refine ⟨hdistinct.insert leaf _, fun e he => ?_, fun e he m hm => ?_⟩
    · rcases mem_insert he with he | ⟨-, hmarkers⟩
      · exact htypes e he
      · rw [hmarkers]
        exact MarkerOf.nodup_types_firstOfEachType _
    · rcases mem_insert he with he | ⟨hidentity, hmarkers⟩
      · exact helements e he m hm
      · rw [hmarkers] at hm
        obtain ⟨d, hd, rfl⟩ := List.mem_map.1 hm
        obtain ⟨x, -, hx⟩ := List.mem_map.1 (MarkerOf.mem_firstOfEachType _ hd).1
        rw [← hx, hidentity]
        rfl

/-- Each member has one entry, with a list for each of its parameters. -/
structure Aligned (parameters : μ → List Parameter) (t : MemberTable μ ParameterMarkers) :
    Prop where
  distinct : t.Distinct
  places : ∀ e ∈ t, e.2 = parameterMarkers (parameters e.1)

theorem aligned_scan (members : List μ) (marked : μ → Bool) (parameters : μ → List Parameter) :
    (scan members marked fun m => parameterMarkers (parameters m)).Aligned parameters := by
  obtain ⟨hdistinct, hentries⟩ := scan_spec members marked fun m => parameterMarkers (parameters m)
  exact ⟨hdistinct, fun e he => (hentries e he).2.2⟩

end MemberTable

/-! ## Findings -/

/-- The tables of findings are tables of members with what is on them. -/
structure Findings.Regular (f : Findings) : Prop where
  fields : f.fields.Attributed
  methods : f.methods.Attributed
  constructors : f.constructors.Attributed
  methodParameters : f.methodParameters.Aligned Method.parameters
  constructorParameters : f.constructorParameters.Aligned Constructor.parameters

theorem Findings.regular_ofChain (typeName : String) (chain : List (TypeId × TypeDecl))
    (rule : OverrideRule) : (Findings.ofChain typeName chain rule).Regular where
  fields := MemberTable.attributed_scan _ _ _
  methods := MemberTable.attributed_resolve _ _
  constructors := MemberTable.attributed_scan _ _ _
  methodParameters := MemberTable.aligned_scan _ _ _
  constructorParameters := MemberTable.aligned_scan _ _ _

end MarkerIndex.Host
