/-
Stopping at a target. Reading with a target type is reading without one up to the end of the first
marker of that type, at whatever depth, that the collector keeps; there it stops, with the markers
that were filed until then. If no such marker ends before the reading without a target does, the
two are the same.
-/
import MarkerIndex.Proofs.ClassFile.Declining
import MarkerIndex.Proofs.ClassFile.Reading
import Mathlib.Data.List.Induction

namespace MarkerIndex.ClassFile

variable {o : Options} {data rest : Bytes} {es front : List Event} {type : String}
  {opened closed : List Bracket} {answer : Except Fault Unit}

namespace Collector

variable {c c' d : Collector} {e : Event}

/-! ## What has been filed -/

theorem hear_snoc_goes {target : Option String} :
    (visitor target).hear (es ++ [e]) c = (true, c') ↔
      ∃ mid, (visitor target).hear es c = (true, mid) ∧ (visitor target).visit e mid = (true, c') := by
  rw [Visitor.hear_append_goes]
  constructor
  · rintro ⟨mid, hes, he⟩
    obtain ⟨last, he, hnil⟩ := hear_cons_goes.1 he
    cases hnil
    exact ⟨mid, hes, he⟩
  · rintro ⟨mid, hes, he⟩
    exact ⟨mid, hes, hear_cons_goes.2 ⟨c', he, rfl⟩⟩

/-- Under the type nothing is filed before a marker of the type ends. -/
theorem get?_filed (hsteps : Steps opened es closed) (hc : c.brackets = opened)
    (hgoes : (visitor none).hear es c = (true, c')) (hes : .markerEnd type ∉ es) :
    Entries.get? c'.filed type = Entries.get? c.filed type := by
  induction hsteps generalizing c with
  | nil => cases hgoes; rfl
  | @cons _ mid _ e _ hstep _ ih =>
    obtain ⟨c₁, hvisit, hrest⟩ := hear_cons_goes.1 hgoes
    have htook := visit_took hstep hc
    rw [hvisit] at htook
    obtain ⟨hbrackets, -, -, hkept, hfiled⟩ := htook
    rw [ih hbrackets hrest fun h => hes (List.mem_cons_of_mem _ h)]
    by_cases hmid : mid = []
    · by_cases he : ∃ type', e = .markerEnd type'
      · obtain ⟨type', rfl⟩ := he
        obtain ⟨property, properties, -, hnew⟩ := hfiled type' rfl hmid
        have hne : type' ≠ type := by rintro rfl; exact hes (by simp)
        rw [hnew, Entries.get?_insertNew, if_neg hne, Option.or_none]
      · rw [hkept (.inr fun type' h => he ⟨type', h⟩)]
    · rw [hkept (.inl hmid)]

/-- Behind `outer` nothing is open, the collector being in state `d`, and then something is open all
the time until the end of `es`. -/
def OpenSince (outer : List Event) (d : Collector) (es : List Event) : Prop :=
  (visitor none).hear outer {} = (true, d) ∧ d.frames = [] ∧
    ∃ inside, es = outer ++ inside ∧ ∀ part d', part ≠ [] → part <+: inside →
      (visitor none).hear part d = (true, d') → d'.frames ≠ []

/-- What is filed is what was filed when nothing was open for the last time. -/
theorem exists_openSince (hsteps : Steps [] es closed)
    (hgoes : (visitor none).hear es {} = (true, c)) :
    ∃ outer d, OpenSince outer d es ∧ c.filed = d.filed := by
  -- On the last event: it leaves nothing open, or it files nothing and something stays open.
  induction es using List.reverseRecOn generalizing c closed with
  | nil =>
    cases hgoes
    refine ⟨[], {}, ⟨rfl, rfl, [], rfl, ?_⟩, rfl⟩
    intro part d' hpart hprefix
    exact absurd (List.prefix_nil.1 hprefix) hpart
  | append_singleton es e ih =>
    obtain ⟨mid, hfront, hlast⟩ := hsteps.split
    obtain _ | ⟨hstep, hnil⟩ := hlast
    cases hnil
    obtain ⟨u, hes, hvisit⟩ := hear_snoc_goes.1 hgoes
    obtain ⟨hu, -, -⟩ := hear_took hfront rfl hes
    have htook := visit_took hstep hu
    rw [hvisit] at htook
    obtain ⟨hbrackets, -, -, hkept, -⟩ := htook
    by_cases hclosed : closed = []
    · subst hclosed
      refine ⟨es ++ [e], c, ⟨hgoes, List.map_eq_nil_iff.1 hbrackets, [], by simp, ?_⟩, rfl⟩
      intro part d' hpart hprefix
      exact absurd (List.prefix_nil.1 hprefix) hpart
    · obtain ⟨outer, d, ⟨houter, hd, inside, rfl, hinside⟩, hfiled⟩ := ih hfront hes
      refine ⟨outer, d, ⟨houter, hd, inside ++ [e], by simp, ?_⟩, (hkept (.inl hclosed)).trans hfiled⟩
      intro part d' hpart hprefix hd'
      obtain rfl | hprefix := List.prefix_concat_iff.1 hprefix
      · rw [List.append_assoc, Visitor.hear_append_of_goes _ houter, hd'] at hgoes
        cases hgoes
        rintro hframes
        exact hclosed (by rw [← hbrackets, brackets, hframes]; rfl)
      · exact hinside part d' hpart hprefix hd'

end Collector

open Collector (visitor OpenSince)

/-! ## Reading up to a target -/

/-- Without a target the collector is told `front` and then the end of a marker of the type, which
it keeps; `c` is its state behind that. -/
def FiledBehind (o : Options) (data : Bytes) (type : String) (front : List Event) (c : Collector) :
    Prop :=
  front ++ [.markerEnd type] <+: heard o (visitor none) data {} ∧
    (visitor none).hear (front ++ [.markerEnd type]) {} = (true, c)

/-- And no marker of the type was kept before. -/
def FirstFiledBehind (o : Options) (data : Bytes) (type : String) (front : List Event)
    (c : Collector) : Prop :=
  FiledBehind o data type front c ∧
    ∀ front' c', FiledBehind o data type front' c' → front <+: front'

section FiledBehind

variable {c : Collector}

theorem FiledBehind.begins (htells : Tells (fun _ v => tellClass o v) data es answer rest)
    (h : FiledBehind o data type front c) : front ++ [.markerEnd type] <+: es :=
  h.1.trans (htells.outcome (visitor none) {}).begins

/-- A target is reached behind the first marker of its type that is kept. -/
theorem firstFiledBehind {back : List Event} {u : Collector}
    (htells : Tells (fun _ v => tellClass o v) data (front ++ .markerEnd type :: back) answer rest)
    (hfront : (visitor none).hear front {} = (true, u))
    (hvisit : (visitor none).visit (.markerEnd type) u = (true, c))
    (hnot : .markerEnd type ∉ front) : FirstFiledBehind o data type front c := by
  have hgoes : (visitor none).hear (front ++ [.markerEnd type]) {} = (true, c) :=
    Collector.hear_snoc_goes.2 ⟨u, hfront, hvisit⟩
  have hscript : front ++ [.markerEnd type] <+: front ++ .markerEnd type :: back := ⟨back, by simp⟩
  refine ⟨⟨(htells.outcome (visitor none) {}).begins_of_goes hscript hgoes, hgoes⟩, ?_⟩
  intro front' c' h
  -- Both are beginnings of the script, and `front` has no end of such a marker in it.
  have hends : ¬ front' ++ [.markerEnd type] <+: front := fun h' => hnot (h'.subset (by simp))
  have hfront' : front <+: front' ++ [.markerEnd type] :=
    (List.prefix_or_prefix_of_prefix (h.begins htells) ⟨_, rfl⟩).resolve_left hends
  obtain rfl | h := List.prefix_concat_iff.1 hfront'
  · exact absurd List.prefix_rfl hends
  · exact h

/-- What is filed there: the markers filed before, with the one that ends if nothing is around it. -/
theorem filed_behind {back : List Event} {u : Collector}
    (hsteps : Steps [] (front ++ .markerEnd type :: back) closed)
    (hfront : (visitor none).hear front {} = (true, u))
    (hvisit : (visitor none).visit (.markerEnd type) u = (true, c))
    (hnot : .markerEnd type ∉ front) :
    (c.frames = [] → ∃ property properties, u.frames = [.marker type property properties] ∧
        c.filed = u.filed ++ [(type, ⟨type, properties, none⟩)]) ∧
      (c.frames ≠ [] → ∃ outer d, OpenSince outer d (front ++ [.markerEnd type]) ∧
        c.filed = d.filed) := by
  obtain ⟨mid, hbefore, hafter⟩ := hsteps.split
  obtain _ | ⟨hstep, -⟩ := hafter
  obtain ⟨hu, -, -⟩ := Collector.hear_took hbefore rfl hfront
  have htook := Collector.visit_took hstep hu
  rw [hvisit] at htook
  obtain ⟨hbrackets, -, -, -, hfiled⟩ := htook
  constructor
  · intro hframes
    rw [Collector.brackets, hframes] at hbrackets
    obtain ⟨property, properties, hu, hnew⟩ := hfiled type rfl hbrackets.symm
    have hhas : Entries.has u.filed type = false := by
      unfold Entries.has
      rw [Collector.get?_filed hbefore rfl hfront hnot]
      rfl
    refine ⟨property, properties, hu, ?_⟩
    rw [hnew, Entries.insertNew, hhas]
    rfl
  · intro _
    have hsteps : Steps [] (front ++ [.markerEnd type]) _ := hbefore.append (.cons hstep .nil)
    exact Collector.exists_openSince hsteps (Collector.hear_snoc_goes.2 ⟨u, hfront, hvisit⟩)

/-- A collector that goes on after the whole script has met no marker of the type. -/
theorem unreached_of_goes (htells : Tells (fun _ v => tellClass o v) data es answer rest)
    (hsteps : Steps [] es closed) (hgoes : (visitor (some type)).hear es {} = (true, c)) :
    (¬ ∃ front c, FiledBehind o data type front c) ∧
      ClassRecord.read data (some type) o = ClassRecord.read data none o := by
  obtain ⟨hnone, hnot⟩ := (Collector.hear_some hsteps rfl type).1 hgoes
  constructor
  · rintro ⟨front, c', h⟩
    exact hnot ((h.begins htells).subset (by simp))
  · unfold ClassRecord.read
    rw [htells.decode_of_goes hgoes, htells.decode_of_goes hnone]

/-- Nor has a collector that rejects an event of the script. -/
theorem unreached_of_rejects {back : List Event} {e : Event} {u : Collector} {cause : Malformation}
    (htells : Tells (fun _ v => tellClass o v) data (front ++ e :: back) answer rest)
    (hsteps : Steps [] (front ++ e :: back) closed) (he : e ≠ .finish)
    (hfront : (visitor (some type)).hear front {} = (true, u))
    (hvisit : (visitor none).visit e u = (false, c)) (hfault : c.fault = some cause) :
    (¬ ∃ front c, FiledBehind o data type front c) ∧
      ClassRecord.read data none o = .error (.malformed cause) := by
  obtain ⟨mid, hbefore, -⟩ := hsteps.split
  obtain ⟨hnone, hnot⟩ := (Collector.hear_some hbefore rfl type).1 hfront
  obtain ⟨hdecode, hheard⟩ := htells.declined he hnone hvisit
  constructor
  · rintro ⟨front', c', hbegins, hgoes⟩
    rw [hheard] at hbegins
    obtain hall | hbegins := List.prefix_concat_iff.1 hbegins
    · -- The event that was kept cannot be the one that was rejected.
      obtain ⟨u', hu', hvisit'⟩ := Collector.hear_snoc_goes.1 (hall ▸ hgoes)
      rw [hnone] at hu'
      cases hu'
      rw [hvisit] at hvisit'
      cases hvisit'
    · exact hnot (hbegins.subset (by simp))
  · unfold ClassRecord.read
    rw [hdecode]
    dsimp only
    rw [hfault]

end FiledBehind

/-- Reading with a target. -/
theorem read_target (o : Options) (data : Bytes) (type : String) :
    ((∃ front c, FiledBehind o data type front c) →
      ∃ front c, FirstFiledBehind o data type front c ∧
        (∃ header, c.header = some header ∧
          ClassRecord.read data (some type) o = .ok ⟨header, c.filed, true⟩) ∧
        (c.frames = [] → ∃ u property properties, (visitor none).hear front {} = (true, u) ∧
          u.frames = [.marker type property properties] ∧
          c.filed = u.filed ++ [(type, ⟨type, properties, none⟩)]) ∧
        (c.frames ≠ [] → ∃ outer d, OpenSince outer d (front ++ [.markerEnd type]) ∧
          c.filed = d.filed)) ∧
    ((¬ ∃ front c, FiledBehind o data type front c) →
      ClassRecord.read data (some type) o = ClassRecord.read data none o ∧
        ∀ record, ClassRecord.read data (some type) o = .ok record → record.endedEarly = false) := by
  obtain ⟨es, answer, rest, htells, hscript⟩ := exists_script o data
  obtain ⟨closed, hsteps⟩ := hscript.steps
  have hreading := reading htells hscript (some type)
  generalize hread : ClassRecord.read data (some type) o = result at hreading
  cases hreading with
  | reached hes htarget hfront hvisit hheader =>
    cases htarget
    subst hes
    obtain ⟨mid, hbefore, -⟩ := hsteps.split
    obtain ⟨hnone, hnot⟩ := (Collector.hear_some hbefore rfl type).1 hfront
    have hfirst := firstFiledBehind htells hnone hvisit hnot
    obtain ⟨htop, hinside⟩ := filed_behind hsteps hnone hvisit hnot
    refine ⟨fun _ => ⟨_, _, hfirst, ⟨_, hheader, rfl⟩, ?_, hinside⟩, fun h => absurd ⟨_, _, hfirst.1⟩ h⟩
    intro hframes
    obtain ⟨property, properties, hu, hfiled⟩ := htop hframes
    exact ⟨_, property, properties, hnone, hu, hfiled⟩
  | whole ha hgoes hheader =>
    obtain ⟨hnone, hsame⟩ := unreached_of_goes htells hsteps hgoes
    refine ⟨fun h => absurd h hnone, fun _ => ⟨hread ▸ hsame, ?_⟩⟩
    rintro _ ⟨⟩
    rfl
  | broken ha hgoes hf =>
    obtain ⟨hnone, hsame⟩ := unreached_of_goes htells hsteps hgoes
    refine ⟨fun h => absurd h hnone, fun _ => ⟨hread ▸ hsame, ?_⟩⟩
    rintro _ ⟨⟩
  | rejected hes he hfront hvisit hfault hcause =>
    subst hes
    obtain ⟨hnone, hsame⟩ := unreached_of_rejects htells hsteps he hfront hvisit hfault
    refine ⟨fun h => absurd h hnone, fun _ => ⟨hsame.symm, ?_⟩⟩
    rintro _ ⟨⟩

set_option maxRecDepth 4000 in
/-- The first `T` ends inside `M`, and no `N` does. -/
theorem read_target_markedClass :
    (∃ front c, FirstFiledBehind {} (markedClass 2) "T" front c ∧ ∃ header,
      c.header = some header ∧
        ClassRecord.read (markedClass 2) (some "T") {} = .ok ⟨header, c.filed, true⟩) ∧
    ClassRecord.read (markedClass 2) (some "N") {} = ClassRecord.read (markedClass 2) none {} := by
  have hT : FiledBehind {} (markedClass 2) "T" (openingMarked ++ [.markerStart "T" (some "x") true])
      ((visitor none).hear
        (openingMarked ++ [.markerStart "T" (some "x") true] ++ [.markerEnd "T"]) {}).2 :=
    ⟨by decide +kernel, Prod.ext (by decide +kernel) rfl⟩
  have hN : ¬ ∃ front c, FiledBehind {} (markedClass 2) "N" front c := by
    rintro ⟨front, c, hbegins, -⟩
    have hnot : .markerEnd "N" ∉ heard {} (visitor none) (markedClass 2) {} := by decide +kernel
    exact hnot (hbegins.subset (by simp))
  obtain ⟨front, c, hfirst, hread, -, -⟩ := (read_target {} (markedClass 2) "T").1 ⟨_, _, hT⟩
  exact ⟨⟨front, c, hfirst, hread⟩, ((read_target {} (markedClass 2) "N").2 hN).1⟩

end MarkerIndex.ClassFile
