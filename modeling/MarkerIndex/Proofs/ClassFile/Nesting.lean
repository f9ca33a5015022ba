/-
What is open while a descriptor is told. Read as brackets, the starts and ends of markers and arrays
in a script match, a name is told exactly where something is told as the value of a property, and
the frames of the collector are the open brackets with what was collected for them so far. So the
collector is never told anything out of place, and what it rejects is a fault of the bytes.
-/
import MarkerIndex.ClassFile.Collect
import MarkerIndex.Proofs.ClassFile.Protocol

namespace MarkerIndex.ClassFile

/-! ## Brackets -/

/-- Something that was started and not ended yet. -/
inductive Bracket where
  | marker (type : String) (property : Option String)
  | array (name : String)

/-- What is told with these brackets open, the last one first, has a name exactly in a marker. -/
def Admits : List Bracket → Option String → Prop
  | .marker _ _ :: _, property => property ≠ none
  | _, property => property = none

/-- An event, between the brackets open in front of it and behind it. -/
inductive Step : List Bracket → Event → List Bracket → Prop
  | header (header : Header) : Step [] (.header header) []
  | markerStart {opened : List Bracket} {type : String} {property : Option String} {visible : Bool}
      (h : Admits opened property) :
      Step opened (.markerStart type property visible) (.marker type property :: opened)
  | markerEnd {opened : List Bracket} {type : String} {property : Option String}
      (h : Admits opened property) :
      Step (.marker type property :: opened) (.markerEnd type) opened
  | value {opened : List Bracket} {property : Option String} {s : Scalar} (hopened : opened ≠ [])
      (h : Admits opened property) : Step opened (.value property s) opened
  | arrayStart {opened : List Bracket} {name : String} (h : Admits opened (some name)) :
      Step opened (.arrayStart name) (.array name :: opened)
  | arrayEnd {opened : List Bracket} {name : String} (h : Admits opened (some name)) :
      Step (.array name :: opened) (.arrayEnd name) opened
  | finish : Step [] .finish []

/-- Events one after the other. -/
inductive Steps : List Bracket → List Event → List Bracket → Prop
  | nil {opened : List Bracket} : Steps opened [] opened
  | cons {opened mid closed : List Bracket} {e : Event} {es : List Event} (h : Step opened e mid)
      (h' : Steps mid es closed) : Steps opened (e :: es) closed

section Steps

variable {opened closed : List Bracket} {es es' : List Event}

theorem Steps.append {mid : List Bracket} (h : Steps opened es mid) (h' : Steps mid es' closed) :
    Steps opened (es ++ es') closed := by
  induction h with
  | nil => exact h'
  | cons hstep _ ih => exact .cons hstep (ih h')

theorem Step.unique {e : Event} {closed' : List Bracket} (h : Step opened e closed)
    (h' : Step opened e closed') : closed = closed' := by
  cases h <;> cases h' <;> rfl

/-- The events determine what is open behind them. -/
theorem Steps.unique {closed' : List Bracket} (h : Steps opened es closed)
    (h' : Steps opened es closed') : closed = closed' := by
  induction h with
  | nil => cases h'; rfl
  | cons hstep _ ih =>
    obtain _ | ⟨hstep', hrest⟩ := h'
    rw [hstep.unique hstep'] at ih
    exact ih hrest

theorem Steps.split (h : Steps opened (es ++ es') closed) :
    ∃ mid, Steps opened es mid ∧ Steps mid es' closed := by
  induction es generalizing opened with
  | nil => exact ⟨opened, .nil, h⟩
  | cons e es ih =>
    obtain _ | ⟨hstep, hrest⟩ := h
    obtain ⟨mid, hfront, hback⟩ := ih hrest
    exact ⟨mid, .cons hstep hfront, hback⟩

theorem Steps.front (h : Steps opened es' closed) (hes : es <+: es') :
    ∃ mid, Steps opened es mid := by
  obtain ⟨back, rfl⟩ := hes
  obtain ⟨mid, hfront, -⟩ := h.split
  exact ⟨mid, hfront⟩

/-- Where a part of a marker may be told. -/
def Form.Within (opened : List Bracket) : Form → Prop
  | .marker property => Admits opened property
  | .content property => opened ≠ [] ∧ Admits opened property
  | .properties => ∃ type property rest, opened = .marker type property :: rest
  | .elements => ∃ name rest, opened = .array name :: rest

/-- A part of a marker closes what it opens, and nothing else. -/
theorem Phrase.steps {visible : Bool} {form : Form} (h : Phrase visible form es)
    (hwithin : form.Within opened) : Steps opened es opened := by
  -- The open brackets are general: the parts of a marker are told with the marker open.
  induction h generalizing opened with
  | @marker type property _ _ ih =>
    have hinner := @ih (.marker type property :: opened) ⟨_, _, _, rfl⟩
    exact .cons (.markerStart hwithin) (hinner.append (.cons (.markerEnd hwithin) .nil))
  | value => exact .cons (.value hwithin.1 hwithin.2) .nil
  | nested _ ih => exact ih hwithin.2
  | @array name _ _ ih =>
    have hinner := @ih (.array name :: opened) ⟨_, _, rfl⟩
    exact .cons (.arrayStart hwithin.2) (hinner.append (.cons (.arrayEnd hwithin.2) .nil))
  | noProperties | noElements => exact .nil
  | property _ _ ih ih' =>
    obtain ⟨type, property, rest, rfl⟩ := hwithin
    exact (ih ⟨by simp, by simp [Admits]⟩).append (ih' ⟨type, property, rest, rfl⟩)
  | element _ _ ih ih' =>
    obtain ⟨name, rest, rfl⟩ := hwithin
    exact (ih ⟨by simp, by simp [Admits]⟩).append (ih' ⟨name, rest, rfl⟩)

theorem Markers.steps (h : Markers es) : Steps [] es [] := by
  induction h with
  | nil => exact .nil
  | cons hmarker _ ih =>
    have hwithin : Form.Within [] (.marker none) := by simp [Form.Within, Admits]
    exact (hmarker.steps hwithin).append ih

theorem ScriptOf.steps {answer : Except Fault Unit} (h : ScriptOf es answer) :
    ∃ closed, Steps [] es closed := by
  cases h with
  | whole h =>
    obtain ⟨header, ms, hms, rfl⟩ := h
    exact ⟨[], .cons (.header header) (hms.steps.append (.cons .finish .nil))⟩
  | @broken header _ _ hms hbegins _ =>
    exact (Steps.cons (.header header) hms.steps).front hbegins

end Steps

/-! ## The collector -/

/-- The frame without what was collected. -/
def Frame.bracket : Frame → Bracket
  | .marker type property _ => .marker type property
  | .array name _ _ => .array name

namespace Collector

def brackets (c : Collector) : List Bracket := c.frames.map Frame.bracket

/-- What the collector makes of an event behind which `closed` are open. Only the end of a marker
with nothing around it files something. -/
inductive Took (c : Collector) (e : Event) (closed : List Bracket) : Answer → Prop
  | goes {c' : Collector} (hbrackets : c'.brackets = closed) (hfault : c'.fault = c.fault)
      (hheader : c.header ≠ none ∨ (∃ header, e = .header header) → c'.header ≠ none)
      (hkept : closed ≠ [] ∨ (∀ type, e ≠ .markerEnd type) → c'.filed = c.filed)
      (hfiled : ∀ type, e = .markerEnd type → closed = [] → ∃ property properties,
        c.frames = [.marker type property properties] ∧
          c'.filed = Entries.insertNew c.filed type ⟨type, properties, none⟩) :
      Took c e closed (true, c')
  | rejects {c' : Collector} {cause : Malformation} (hfault : c'.fault = some cause)
      (hcause : cause.isMistold = false) : Took c e closed (false, c')

variable {c c' : Collector} {e : Event} {es : List Event} {opened closed : List Bracket}
  {property : Option String}

theorem frames_of_marker {type : String} (h : c.brackets = .marker type property :: opened) :
    ∃ properties rest, c.frames = .marker type property properties :: rest ∧
      rest.map Frame.bracket = opened := by
  obtain ⟨frame, rest, hframes, hframe, hrest⟩ := List.map_eq_cons_iff.1 h
  cases frame with
  | marker => cases hframe; exact ⟨_, rest, hframes, hrest⟩
  | array => cases hframe

theorem frames_of_array {name : String} (h : c.brackets = .array name :: opened) :
    ∃ scalars markers rest, c.frames = .array name scalars markers :: rest ∧
      rest.map Frame.bracket = opened := by
  obtain ⟨frame, rest, hframes, hframe, hrest⟩ := List.map_eq_cons_iff.1 h
  cases frame with
  | marker => cases hframe
  | array => cases hframe; exact ⟨_, _, rest, hframes, hrest⟩

/-- A value told in its place changes the frame on top, or is rejected by an array that holds
something else. -/
theorem place_took (value : Value) {frames : List Frame} (hframes : frames.map Frame.bracket = opened)
    (hopened : opened ≠ []) (h : Admits opened property) (he : ∀ header, e ≠ .header header) :
    Took c e opened (place property value { c with frames }) := by
  subst hframes
  -- Whatever goes on changes the frame on top and nothing else.
  have hgoes : ∀ frames', frames'.map Frame.bracket = frames.map Frame.bracket →
      Took c e (frames.map Frame.bracket) (true, { c with frames := frames' }) := fun frames' h' =>
    .goes h' rfl (by simp [he]) (fun _ => rfl) (fun _ _ hnil => absurd hnil hopened)
  rcases frames with _ | ⟨⟨type, outer, properties⟩ | ⟨name, scalars, markers⟩, rest⟩
  · exact absurd rfl hopened
  · obtain ⟨name, rfl⟩ := Option.ne_none_iff_exists'.1 h
    exact hgoes _ rfl
  · unfold place
    dsimp only
    split
    · exact hgoes _ rfl
    · exact hgoes _ rfl
    · exact .rejects rfl rfl

/-- A closed marker is filed, or placed in what is around it. -/
theorem file_took {type : String} {properties : Properties} {rest : List Frame}
    (hframes : c.frames = .marker type property properties :: rest)
    (hrest : rest.map Frame.bracket = closed) (h : Admits closed property) :
    Took c (.markerEnd type) closed
      (file ⟨type, properties, none⟩ property { c with frames := rest }) := by
  cases rest with
  | nil =>
    refine .goes hrest rfl (by simp) (by simp [← hrest]) ?_
    rintro _ ⟨⟩ -
    exact ⟨property, properties, hframes, rfl⟩
  | cons frame rest =>
    have hclosed : closed ≠ [] := by rintro rfl; cases hrest
    exact place_took _ hrest hclosed h (by simp)

/-- The collector goes on after an event that is told in its place, with the brackets behind the
event, or finds a fault of the bytes in it. -/
theorem visit_took (hstep : Step opened e closed) (hc : c.brackets = opened) :
    Took c e closed ((visitor none).visit e c) := by
  cases hstep with
  | header header => exact .goes hc rfl (by simp) (fun _ => rfl) (by simp)
  | finish => exact .goes hc rfl (by simp) (fun _ => rfl) (by simp)
  | markerStart => exact .goes (congrArg _ hc) rfl (by simp) (fun _ => rfl) (by simp)
  | arrayStart => exact .goes (congrArg _ hc) rfl (by simp) (fun _ => rfl) (by simp)
  | @value _ property s hopened hadmits => exact place_took (.scalar s) hc hopened hadmits (by simp)
  | @arrayEnd _ name hadmits =>
    obtain ⟨scalars, markers, rest, hframes, hrest⟩ := frames_of_array hc
    have hopened : closed ≠ [] := by rintro rfl; cases hadmits
    show Took c _ _ c.closeArray
    unfold closeArray; rw [hframes]
    exact place_took (arrayValue scalars markers) hrest hopened hadmits (by simp)
  | @markerEnd _ type property hadmits =>
    -- The marker is rejected for a blank type before it is filed.
    obtain ⟨properties, rest, hframes, hrest⟩ := frames_of_marker hc
    have hfile := file_took hframes hrest hadmits
    show Took c _ _ (c.closeMarker none)
    unfold closeMarker MarkerOf.make
    rw [hframes]
    dsimp only
    by_cases hblank : Text.isAllBlank type
    · rw [if_pos hblank]; exact .rejects rfl rfl
    · rw [if_neg hblank]
      dsimp only
      split
      next c' hc' => rw [hc'] at hfile; exact hfile
      next c' hc' => rw [hc'] at hfile; exact hfile

/-- With a target the collector declines the end of a marker of that type, after it was filed. -/
theorem closeMarker_some {type : String} {properties : Properties} {rest : List Frame}
    (hframes : c.frames = .marker type property properties :: rest) (target : String) :
    c.closeMarker (some target) =
      if target = type then (false, (c.closeMarker none).2) else c.closeMarker none := by
  unfold closeMarker
  rw [hframes]
  dsimp only
  by_cases htype : target = type
  · rw [if_pos htype]
    split
    · rfl
    · split
      · simp [htype]
      · rfl
  · have hne : (some target != some type) = true := by simpa using htype
    rw [if_neg htype]
    split
    · rfl
    · split
      · rw [hne]; rfl
      · rfl

theorem visit_some_of_ne {type : String} (hstep : Step opened e closed) (hc : c.brackets = opened)
    (he : e ≠ .markerEnd type) : (visitor (some type)).visit e c = (visitor none).visit e c := by
  cases hstep with
  | markerEnd =>
    obtain ⟨properties, rest, hframes, -⟩ := frames_of_marker hc
    refine (closeMarker_some hframes type).trans (if_neg ?_)
    rintro rfl
    exact he rfl
  | _ => rfl

theorem visit_some_markerEnd {type : String} (hstep : Step opened (.markerEnd type) closed)
    (hc : c.brackets = opened) : (visitor (some type)).visit (.markerEnd type) c =
      (false, ((visitor none).visit (.markerEnd type) c).2) := by
  cases hstep with
  | markerEnd =>
    obtain ⟨properties, rest, hframes, -⟩ := frames_of_marker hc
    exact (closeMarker_some hframes type).trans (if_pos rfl)

/-! ## Runs of the collector -/

theorem hear_cons_goes {target : Option String} : (visitor target).hear (e :: es) c = (true, c') ↔
    ∃ mid, (visitor target).visit e c = (true, mid) ∧ (visitor target).hear es mid = (true, c') := by
  have hvisit : (visitor target).obliging.visit e c = (visitor target).visit e c := by
    cases e <;> simp [visitor, Visitor.obliging, proceed]
  rw [← hvisit]
  constructor
  · exact Walk.andAlso_goes
  · rintro ⟨mid, hmid, hes⟩
    rw [Visitor.hear_cons es hmid, hes]

/-- What holds after events that were told in their places. -/
theorem hear_took (hsteps : Steps opened es closed) (hc : c.brackets = opened)
    (hgoes : (visitor none).hear es c = (true, c')) :
    c'.brackets = closed ∧ c'.fault = c.fault ∧
      (c.header ≠ none ∨ (∃ header, .header header ∈ es) → c'.header ≠ none) := by
  induction hsteps generalizing c with
  | nil => cases hgoes; exact ⟨hc, rfl, by simp⟩
  | cons hstep _ ih =>
    obtain ⟨mid, hvisit, hes⟩ := hear_cons_goes.1 hgoes
    have htook := visit_took hstep hc
    rw [hvisit] at htook
    obtain ⟨hbrackets, hfault, hheader⟩ := htook
    obtain ⟨hclosed, hfault', hheader'⟩ := ih hbrackets hes
    refine ⟨hclosed, hfault'.trans hfault, ?_⟩
    rintro (h | ⟨header, h⟩)
    · exact hheader' (.inl (hheader (.inl h)))
    · obtain rfl | h := List.mem_cons.1 h
      · exact hheader' (.inl (hheader (.inr ⟨header, rfl⟩)))
      · exact hheader' (.inr ⟨header, h⟩)

/-- A target makes no difference before a marker of its type ends. -/
theorem hear_some (hsteps : Steps opened es closed) (hc : c.brackets = opened) (type : String) :
    (visitor (some type)).hear es c = (true, c') ↔
      (visitor none).hear es c = (true, c') ∧ .markerEnd type ∉ es := by
  induction hsteps generalizing c with
  | nil => simp [Visitor.hear_nil]
  | @cons _ _ _ e es hstep _ ih =>
    rw [hear_cons_goes, hear_cons_goes]
    by_cases he : e = .markerEnd type
    · subst he
      simp [visit_some_markerEnd hstep hc]
    · rw [visit_some_of_ne hstep hc he]
      have htook := visit_took hstep hc
      constructor
      · rintro ⟨mid, hvisit, hes⟩
        rw [hvisit] at htook
        obtain ⟨hbrackets⟩ := htook
        obtain ⟨hnone, hnot⟩ := (ih hbrackets).1 hes
        exact ⟨⟨mid, hvisit, hnone⟩, by simp [hnot, Ne.symm he]⟩
      · rintro ⟨⟨mid, hvisit, hes⟩, hnot⟩
        rw [hvisit] at htook
        obtain ⟨hbrackets⟩ := htook
        exact ⟨mid, hvisit, (ih hbrackets).2 ⟨hes, fun h => hnot (List.mem_cons_of_mem _ h)⟩⟩

theorem hear_none {target : Option String} (hsteps : Steps opened es closed)
    (hc : c.brackets = opened) (hgoes : (visitor target).hear es c = (true, c')) :
    (visitor none).hear es c = (true, c') := by
  cases target with
  | none => exact hgoes
  | some type => exact ((hear_some hsteps hc type).1 hgoes).1

theorem fault_of_declined (hstep : Step opened e closed) (hc : c.brackets = opened)
    (h : (visitor none).visit e c = (false, c')) :
    ∃ cause, c'.fault = some cause ∧ cause.isMistold = false := by
  have htook := visit_took hstep hc
  rw [h] at htook
  obtain _ | ⟨hfault, hcause⟩ := htook
  exact ⟨_, hfault, hcause⟩

/-- An event told in its place is declined for a fault of the bytes, or because it ends a marker of
the target type that was filed. -/
theorem visit_declined {target : Option String} (hstep : Step opened e closed)
    (hc : c.brackets = opened) (h : (visitor target).visit e c = (false, c')) :
    (visitor none).visit e c = (false, c') ∨
      ∃ type, target = some type ∧ e = .markerEnd type ∧ (visitor none).visit e c = (true, c') := by
  by_cases htarget : ∃ type, target = some type ∧ e = .markerEnd type
  · obtain ⟨type, rfl, rfl⟩ := htarget
    rw [visit_some_markerEnd hstep hc] at h
    have hstate : ((visitor none).visit (.markerEnd type) c).2 = c' := congrArg Prod.snd h
    cases hanswer : ((visitor none).visit (.markerEnd type) c).1 with
    | false => exact .inl (Prod.ext hanswer hstate)
    | true => exact .inr ⟨type, rfl, rfl, Prod.ext hanswer hstate⟩
  · left
    cases target with
    | none => exact h
    | some type => rwa [visit_some_of_ne hstep hc fun he => htarget ⟨type, rfl, he⟩] at h

end Collector

end MarkerIndex.ClassFile
