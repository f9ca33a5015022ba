/-
Markers that are not visible are a pure addition. Let a descriptor be told to its finish with the
markers that are kept in the descriptor alone. Without them it is told to its finish too, and what
is heard is what was heard before less every marker of the top level that is not visible, from its
start to its end; all other events stay, in their order.

The two tellings go on side by side. They differ at an attribute of such markers only, which one
tells and the other passes over: both are then behind the same bytes, and what was told in between
is markers that are not visible.
-/
import MarkerIndex.Proofs.ClassFile.Declining

namespace MarkerIndex.ClassFile

variable {α β τ : Type}

/-! ## Leaving out markers -/

/-- How many markers are open behind an event, when `opened` are open in front of it. -/
def Event.openedBehind (opened : Nat) : Event → Nat
  | .markerStart _ _ _ => opened + 1
  | .markerEnd _ => opened - 1
  | _ => opened

/-- The event starts no marker that is not visible. -/
def Event.startsVisible : Event → Bool
  | .markerStart _ _ visible => visible
  | _ => true

/-- The events that are kept when `opened` markers are open in front of them, and what is inside
those is kept if `kept` says so. At the top level an event decides for itself, and the start of a
marker for everything up to its end. -/
def visibleFrom : Nat → Bool → List Event → List Event
  | _, _, [] => []
  | opened, kept, e :: es =>
    let kept := if opened = 0 then e.startsVisible else kept
    let rest := visibleFrom (e.openedBehind opened) kept es
    if kept then e :: rest else rest

/-- The events without the markers of the top level that are not visible. -/
def visibleOnly (es : List Event) : List Event := visibleFrom 0 true es

/-- What is left of the events of a marker of the top level. -/
def leftOf (visible : Bool) (es : List Event) : List Event := if visible then es else []

section Leaving

variable {visible kept : Bool} {form : Form} {es es' : List Event}

@[simp] theorem leftOf_append (visible : Bool) (es es' : List Event) :
    leftOf visible (es ++ es') = leftOf visible es ++ leftOf visible es' := by
  cases visible <;> rfl

@[simp] theorem leftOf_nil (visible : Bool) : leftOf visible [] = [] := by cases visible <;> rfl

theorem leftOf_enclosed (visible : Bool) (e : Event) (es : List Event) (e' : Event) :
    leftOf visible (e :: (es ++ [e'])) =
      leftOf visible [e] ++ (leftOf visible es ++ leftOf visible [e']) := by
  cases visible <;> rfl

/-- Inside a marker an event goes the way of the marker. -/
theorem visibleFrom_cons (opened : Nat) (kept : Bool) (e : Event) (es : List Event) :
    visibleFrom (opened + 1) kept (e :: es) =
      leftOf kept [e] ++ visibleFrom (e.openedBehind (opened + 1)) kept es := by
  cases kept <;> rfl

/-- At the top level it is the first of what goes its way. -/
theorem visibleOnly_cons (e : Event) (es : List Event) : visibleOnly (e :: es) =
    leftOf e.startsVisible [e] ++ visibleFrom (e.openedBehind 0) e.startsVisible es := by
  show (if e.startsVisible then _ else _) = _
  cases e.startsVisible <;> rfl

theorem visibleFrom_zero (kept : Bool) (es : List Event) :
    visibleFrom 0 kept es = visibleOnly es := by
  cases es <;> rfl

/-- What stands between a start and its end goes with both. -/
theorem visibleFrom_enclosed {e e' : Event} {opened inside : Nat}
    (he : e.openedBehind (opened + 1) = inside + 1)
    (he' : e'.openedBehind (inside + 1) = opened + 1)
    (h : ∀ rest, visibleFrom (inside + 1) kept (es ++ rest) =
      leftOf kept es ++ visibleFrom (inside + 1) kept rest) (rest : List Event) :
    visibleFrom (opened + 1) kept (e :: (es ++ [e']) ++ rest) =
      leftOf kept (e :: (es ++ [e'])) ++ visibleFrom (opened + 1) kept rest := by
  rw [List.cons_append, visibleFrom_cons, he, List.append_assoc, h, List.singleton_append,
    visibleFrom_cons, he', leftOf_enclosed, List.append_assoc, List.append_assoc]

theorem visibleFrom_phrase (h : Phrase visible form es) (opened : Nat) (rest : List Event) :
    visibleFrom (opened + 1) kept (es ++ rest) =
      leftOf kept es ++ visibleFrom (opened + 1) kept rest := by
  -- The number of open markers is general: the parts of a marker are told with one more open.
  induction h generalizing opened rest with
  | marker _ ih => exact visibleFrom_enclosed rfl rfl (ih (opened + 1)) rest
  | value => exact visibleFrom_cons opened kept _ rest
  | nested _ ih => exact ih opened rest
  | array _ ih => exact visibleFrom_enclosed rfl rfl (ih opened) rest
  | noProperties | noElements => rw [leftOf_nil]; rfl
  | property _ _ ih ih' | element _ _ ih ih' =>
    rw [List.append_assoc, ih, ih', leftOf_append, List.append_assoc]

/-- The events are left as `es'`, whatever follows. -/
def Leaves (es es' : List Event) : Prop :=
  ∀ rest, visibleOnly (es ++ rest) = es' ++ visibleOnly rest

theorem leaves_nil : Leaves [] [] := fun _ => rfl

theorem Leaves.append {left left' : List Event} (h : Leaves es left) (h' : Leaves es' left') :
    Leaves (es ++ es') (left ++ left') := by
  intro rest
  rw [List.append_assoc, h, h', List.append_assoc]

theorem Leaves.eq (h : Leaves es es') : visibleOnly es = es' := by
  have hall := h []
  rwa [List.append_nil, show visibleOnly [] = [] from rfl, List.append_nil] at hall

/-- What is told outside of all markers stays. -/
theorem leaves_outside {e : Event} (hvisible : e.startsVisible = true)
    (hopened : e.openedBehind 0 = 0) : Leaves [e] [e] := by
  intro rest
  rw [List.singleton_append, visibleOnly_cons, hvisible, hopened, visibleFrom_zero]
  rfl

theorem leaves_marker (h : Phrase visible (.marker none) es) : Leaves es (leftOf visible es) := by
  intro rest
  obtain ⟨hinside⟩ := h
  rw [List.cons_append, visibleOnly_cons, List.append_assoc]
  rw [Event.startsVisible, Event.openedBehind, visibleFrom_phrase hinside, List.singleton_append,
    visibleFrom_cons, Event.openedBehind, visibleFrom_zero, leftOf_enclosed, List.append_assoc,
    List.append_assoc]

end Leaving

/-! ## Two tellings -/

/-- On the bytes the first telling fails; or both give the same answer and leave the same bytes, and
of what the first one tells the second one tells what is visible. -/
inductive Spared (w w' : Telling α) (bytes : Bytes) : Prop
  | fails {es : List Event} {f : Fault} {rest : Bytes} (h : Tells w bytes es (.error f) rest)
  | both {es es' : List Event} {a : α} {rest : Bytes} (h : Tells w bytes es (.ok a) rest)
      (h' : Tells w' bytes es' (.ok a) rest) (hleaves : Leaves es es')

/-- The second telling tells what is visible, whatever the bytes are. -/
def Spares (w w' : Telling α) : Prop := ∀ bytes, Spared w w' bytes

section Spares

variable {w w' : Telling α} {f g : α → Telling β} {L : List Event → Prop}

/-- A telling of which everything stays. -/
theorem Speaks.spares (h : Speaks w L) (hleaves : ∀ es, L es → Leaves es es) : Spares w w := by
  intro bytes
  obtain ⟨es, answer, rest, htells, hfollows⟩ := h bytes
  cases hfollows with
  | whole a hL => exact .both htells htells (hleaves es hL)
  | broken => exact .fails htells

theorem spares_done (a : α) : Spares (fun _ _ => Walk.done a) (fun _ _ => Walk.done a) :=
  fun bytes => .both (tells_done a bytes) (tells_done a bytes) leaves_nil

theorem spares_tell {e : Event} (he : e ≠ .finish) (h : Leaves [e] [e]) :
    Spares (fun _ v => Walk.tell v e) (fun _ v => Walk.tell v e) :=
  fun bytes => .both (tells_tell he bytes) (tells_tell he bytes) h

theorem Spares.bind (hw : Spares w w') (hf : ∀ a, Spares (f a) (g a)) :
    Spares (fun σ v => w σ v >>= fun a => f a σ v) (fun σ v => w' σ v >>= fun a => g a σ v) := by
  intro bytes
  cases hw bytes with
  | fails h => exact .fails h.bind_error
  | @both _ _ a rest h h' hleaves =>
    -- Both go on with the same answer from the same bytes.
    cases hf a rest with
    | fails hrest => exact .fails (h.bind hrest)
    | both hrest hrest' hleaves' =>
      exact .both (h.bind hrest) (h'.bind hrest') (hleaves.append hleaves')

theorem spares_read {r : Reader α} (hf : ∀ a, Spares (f a) (g a)) :
    Spares (fun σ v => Walk.read r >>= fun a => f a σ v)
      (fun σ v => Walk.read r >>= fun a => g a σ v) := by
  refine Spares.bind (fun bytes => ?_) hf
  have hread := tells_read r bytes
  rcases hbytes : r bytes with ⟨flaw | a, rest⟩
  · rw [hbytes] at hread; exact .fails hread
  · rw [hbytes] at hread; exact .both hread hread leaves_nil

theorem Spares.times {w w' : Telling Unit} (n : Nat) (hw : Spares w w') :
    Spares (fun σ v => Walk.times n (w σ v)) (fun σ v => Walk.times n (w' σ v)) := by
  induction n with
  | zero => exact spares_done ()
  | succ n ih =>
    exact hw.bind (f := fun _ σ v => Walk.times n (w σ v)) (g := fun _ σ v => Walk.times n (w' σ v))
      fun _ => ih

end Spares

/-! ## With and without -/

section Descriptors

variable (o : Options)

/-- The attribute that is told only if markers that are not visible are is the one of those. -/
theorem markerVisibility?_without (name : String) :
    markerVisibility? { o with includeInvisible := false } name =
      (markerVisibility? { o with includeInvisible := true } name).filter id := by
  unfold markerVisibility?
  by_cases hvisible : name = visibleMarkers
  · rw [if_pos hvisible, if_pos hvisible]
    rfl
  · rw [if_neg hvisible, if_neg hvisible]
    by_cases hinvisible : name = invisibleMarkers
    · simp only [hinvisible, true_and]
      rfl
    · simp only [hinvisible, false_and]
      rfl

/-- The body of an attribute stays or goes as a whole. -/
theorem speaks_leaves (t : ConstantTable) (visible : Bool) (limit : Nat) (name : String) :
    Speaks (fun _ v => tellMarkers v t visible limit name)
      fun es => Leaves es (leftOf visible es) := by
  refine speaks_read Reader.plain_u16 fun count => ?_
  refine (speaks_times count.toNat (speaks_markerIn t visible limit limit none)
    (M := fun es => Leaves es (leftOf visible es)) ?_ ?_).bind
      (speaks_atEnd (L := fun es => es = []) rfl rfl) ?_
  · rw [leftOf_nil]; exact leaves_nil
  · rintro es es' (rfl | hes) hes'
    · exact hes'
    · rw [leftOf_append]; exact (leaves_marker hes.phrase).append hes'
  · rintro es _ hes rfl
    rw [List.append_nil]; exact hes

theorem spares_attribute (t : ConstantTable) :
    Spares (fun _ v => tellAttribute { o with includeInvisible := true } v t)
      (fun _ v => tellAttribute { o with includeInvisible := false } v t) := by
  refine spares_read fun p => ?_
  obtain ⟨name, body⟩ := p
  dsimp only
  rw [markerVisibility?_without]
  rcases markerVisibility? { o with includeInvisible := true } name with _ | _ | _
  · exact spares_done ()
  -- The one tells the markers of the body, the other nothing; the bytes behind it are the same.
  · intro bytes
    obtain ⟨es, answer, rest, htells, hfollows⟩ := speaks_leaves t false o.maxNesting name body
    cases hfollows with
    | whole _ hleaves => exact .both (htells.within bytes) (tells_done () bytes) hleaves
    | broken => exact .fails (htells.within bytes)
  · exact ((speaks_leaves t true o.maxNesting name).within body).spares fun es hes => hes

theorem spares_class :
    Spares (fun _ v => tellClass { o with includeInvisible := true } v)
      (fun _ v => tellClass { o with includeInvisible := false } v) := by
  refine spares_read fun p => ?_
  obtain ⟨header, t⟩ := p
  refine (spares_tell (by simp) (leaves_outside rfl rfl)).bind fun _ => ?_
  refine spares_read fun count => ?_
  refine ((spares_attribute o t).times count.toNat).bind fun _ => ?_
  exact fun bytes => .both (tells_tellLast bytes) (tells_tellLast bytes) (leaves_outside rfl rfl)

/-- The events of a descriptor with these markers, each with its visibility. -/
def wordOf (header : Header) (markers : List (Bool × List Event)) : List Event :=
  .header header :: (markers.flatMap (·.2) ++ [.finish])

theorem Markers.exists_blocks {es : List Event} (h : Markers es) :
    ∃ markers : List (Bool × List Event), (∀ m ∈ markers, Phrase m.1 (.marker none) m.2) ∧
      es = markers.flatMap (·.2) := by
  induction h with
  | nil => exact ⟨[], by simp, rfl⟩
  | @cons visible es _ h _ ih =>
    obtain ⟨markers, hmarkers, rfl⟩ := ih
    exact ⟨(visible, es) :: markers, List.forall_mem_cons.2 ⟨h, hmarkers⟩, rfl⟩

/-- What is heard when a telling finishes. -/
theorem exists_wordOf {o : Options} {data : Bytes} {u : Visitor τ} {s : τ}
    (h : (decode o u data s).1 = .ok .finished) :
    ∃ header markers, (∀ m ∈ markers, Phrase m.1 (.marker none) m.2) ∧
      heard o u data s = wordOf header markers := by
  obtain ⟨es, answer, rest, htells, hscript⟩ := exists_script o data
  obtain ⟨-, header, ms, hms, hword⟩ | ⟨hnot, -⟩ := (htells.outcome u s).speaks hscript
  · obtain ⟨markers, hmarkers, rfl⟩ := hms.exists_blocks
    exact ⟨header, markers, hmarkers, hword⟩
  · exact absurd h hnot

theorem leaves_markers {markers : List (Bool × List Event)}
    (h : ∀ m ∈ markers, Phrase m.1 (.marker none) m.2) :
    Leaves (markers.flatMap (·.2)) ((markers.filter (·.1)).flatMap (·.2)) := by
  induction markers with
  | nil => exact leaves_nil
  | cons m markers ih =>
    obtain ⟨hm, hmarkers⟩ := List.forall_mem_cons.1 h
    have hleaves := (leaves_marker hm).append (ih hmarkers)
    obtain ⟨visible, es⟩ := m
    cases visible with
    | false => exact hleaves
    | true => exact hleaves

/-- Of a whole descriptor the header, the visible markers and the finish are left. -/
theorem visibleOnly_wordOf (header : Header) {markers : List (Bool × List Event)}
    (h : ∀ m ∈ markers, Phrase m.1 (.marker none) m.2) :
    visibleOnly (wordOf header markers) = wordOf header (markers.filter (·.1)) :=
  ((leaves_outside (e := .header header) rfl rfl).append
    ((leaves_markers h).append (leaves_outside (e := .finish) rfl rfl))).eq

/-- A descriptor that is told to its finish with the markers that are not visible is told to its
finish without them, and then what is heard is what was heard before less these markers: it was the
header, the markers in their order and the finish, and it is the same with the visible ones. -/
theorem decode_visible (data : Bytes) {u : Visitor τ} (hu : u.Tireless) (s : τ)
    (h : (decode { o with includeInvisible := true } u data s).1 = .ok .finished) :
    (decode { o with includeInvisible := false } u data s).1 = .ok .finished ∧
      heard { o with includeInvisible := false } u data s =
        visibleOnly (heard { o with includeInvisible := true } u data s) ∧
      ∃ header markers, (∀ m ∈ markers, Phrase m.1 (.marker none) m.2) ∧
        heard { o with includeInvisible := true } u data s = wordOf header markers ∧
        heard { o with includeInvisible := false } u data s =
          wordOf header (markers.filter (·.1)) := by
  have hboth : (decode { o with includeInvisible := false } u data s).1 = .ok .finished ∧
      heard { o with includeInvisible := false } u data s =
        visibleOnly (heard { o with includeInvisible := true } u data s) := by
    cases spares_class o data with
    | @fails es _ _ hfails =>
      obtain ⟨t, ht⟩ := hu.hear es s
      rw [hfails.decode_of_goes ht] at h
      cases h
    | @both es es' _ _ hwith hwithout hleaves =>
      obtain ⟨t, ht⟩ := hu.hear es s
      obtain ⟨t', ht'⟩ := hu.hear es' s
      rw [hwithout.decode_of_goes ht', hwithout.heard_of_goes ht', hwith.heard_of_goes ht]
      exact ⟨rfl, hleaves.eq.symm⟩
  obtain ⟨header, markers, hmarkers, hword⟩ := exists_wordOf h
  refine ⟨hboth.1, hboth.2, header, markers, hmarkers, hword, ?_⟩
  rw [hboth.2, hword, visibleOnly_wordOf header hmarkers]

/-- A class with a marker `M` that is not visible and has a marker `T` inside, and then a visible
marker `T`. -/
def twofoldClass : Bytes :=
  [0xCA, 0xFE, 0xBA, 0xBE, 0, 0, 0, 0x34, 0, 8, 1, 0, 1, 0x41, 7, 0, 1, 1, 0, 25] ++
    visibleMarkers.toList.map (fun c => UInt8.ofNat c.toNat) ++
  [1, 0, 3, 0x4C, 0x4D, 0x3B, 1, 0, 1, 0x78, 1, 0, 3, 0x4C, 0x54, 0x3B, 1, 0, 27] ++
    invisibleMarkers.toList.map (fun c => UInt8.ofNat c.toNat) ++
  [0, 0x21, 0, 2, 0, 0, 0, 0, 0, 0, 0, 0, 0, 2,
    0, 7, 0, 0, 0, 13, 0, 1, 0, 4, 0, 1, 0, 5, 0x40, 0, 6, 0, 0,
    0, 3, 0, 0, 0, 6, 0, 1, 0, 6, 0, 0]

set_option maxRecDepth 4000 in
/-- The inner `T` goes with its `M`, and the visible one stays. -/
theorem decode_visible_twofold : Visitor.silent.Tireless ∧
    (decode { includeInvisible := true } Visitor.silent twofoldClass ()).1 = .ok .finished ∧
    heard { includeInvisible := true } Visitor.silent twofoldClass () =
      [.header ⟨0, 52, 0x21, "A", none, []⟩, .markerStart "M" none false,
        .markerStart "T" (some "x") false, .markerEnd "T", .markerEnd "M",
        .markerStart "T" none true, .markerEnd "T", .finish] ∧
    heard {} Visitor.silent twofoldClass () =
      [.header ⟨0, 52, 0x21, "A", none, []⟩, .markerStart "T" none true, .markerEnd "T",
        .finish] := by
  have hsilent : Visitor.silent.Tireless := fun _ _ => rfl
  have hfinished : (decode { includeInvisible := true } Visitor.silent twofoldClass ()).1 =
      .ok .finished := by decide +kernel
  have hheard : heard { includeInvisible := true } Visitor.silent twofoldClass () =
      [.header ⟨0, 52, 0x21, "A", none, []⟩, .markerStart "M" none false,
        .markerStart "T" (some "x") false, .markerEnd "T", .markerEnd "M",
        .markerStart "T" none true, .markerEnd "T", .finish] := by decide +kernel
  refine ⟨hsilent, hfinished, hheard, ?_⟩
  rw [(decode_visible {} twofoldClass hsilent () hfinished).2.1, hheard]
  rfl

end Descriptors

end MarkerIndex.ClassFile
