/-
What is told of a marker, as a tree. A marker is its type and its properties, a property a name and
a scalar, a marker or an array, and an array its elements, which are scalars or markers. The events
of a marker are its tree gone through in order, each part between its start and its end; and they
spell only this tree, whatever is told behind them.
-/
import MarkerIndex.Proofs.ClassFile.Visibility

namespace MarkerIndex.ClassFile

/-! ## Trees -/

/-- A part of a marker. -/
inductive MarkerTree : Form → Type
  | marker {property : Option String} (type : String) (properties : MarkerTree .properties) :
      MarkerTree (.marker property)
  | value {property : Option String} (s : Scalar) : MarkerTree (.content property)
  | nested {property : Option String} (m : MarkerTree (.marker property)) :
      MarkerTree (.content property)
  | array {name : String} (elements : MarkerTree .elements) : MarkerTree (.content (some name))
  | noProperties : MarkerTree .properties
  | property (name : String) (content : MarkerTree (.content (some name)))
      (others : MarkerTree .properties) : MarkerTree .properties
  | noElements : MarkerTree .elements
  | element (content : MarkerTree (.content none)) (others : MarkerTree .elements) :
      MarkerTree .elements

namespace MarkerTree

/-- The events of a part of a marker. -/
def events (visible : Bool) : {form : Form} → MarkerTree form → List Event
  | .marker outer, .marker type properties =>
    .markerStart type outer visible :: (properties.events visible ++ [.markerEnd type])
  | .content outer, .value s => [.value outer s]
  | _, .nested m => m.events visible
  | .content (some name), .array elements =>
    .arrayStart name :: (elements.events visible ++ [.arrayEnd name])
  | _, .noProperties => []
  | _, .property _ content others => content.events visible ++ others.events visible
  | _, .noElements => []
  | _, .element content others => content.events visible ++ others.events visible

/-- The number of properties of a marker, or of elements of an array. -/
def count : {form : Form} → MarkerTree form → Nat
  | _, .property _ _ others => others.count + 1
  | _, .element _ others => others.count + 1
  | _, _ => 0

/-- Every marker and array is at most `limit` deep, if the outermost ones are `depth` deep. -/
def Within (limit : Nat) : {form : Form} → MarkerTree form → Nat → Prop
  | _, .marker _ properties, depth => depth ≤ limit ∧ properties.Within limit (depth + 1)
  | _, .value _, _ => True
  | _, .nested m, depth => m.Within limit depth
  | _, .array elements, depth => depth ≤ limit ∧ elements.Within limit (depth + 1)
  | _, .noProperties, _ => True
  | _, .property _ content others, depth => content.Within limit depth ∧ others.Within limit depth
  | _, .noElements, _ => True
  | _, .element content others, depth => content.Within limit depth ∧ others.Within limit depth

/-- Every tree fits a limit. -/
theorem exists_within {form : Form} (tree : MarkerTree form) :
    ∃ n, ∀ limit depth, depth + n ≤ limit → tree.Within limit depth := by
  induction tree with
  | marker _ _ ih | array _ ih =>
    obtain ⟨n, hn⟩ := ih
    exact ⟨n + 1, fun limit depth h => ⟨by omega, hn limit (depth + 1) (by omega)⟩⟩
  | value | noProperties | noElements => exact ⟨0, fun _ _ _ => trivial⟩
  | nested _ ih => exact ih
  | property _ _ _ ih ih' | element _ _ ih ih' =>
    obtain ⟨n, hn⟩ := ih
    obtain ⟨n', hn'⟩ := ih'
    exact ⟨n + n', fun limit depth h =>
      ⟨hn limit depth (by omega), hn' limit depth (by omega)⟩⟩

end MarkerTree

/-- The markers of a class with their visibility, as they are told. -/
def spelled (trees : List (Bool × MarkerTree (.marker none))) : List Event :=
  trees.flatMap fun p => p.2.events p.1

/-! ## Every sequence of the order is that of a tree -/

section Existence

variable {visible : Bool} {es : List Event}

theorem Phrase.exists_tree {form : Form} (h : Phrase visible form es) :
    ∃ tree : MarkerTree form, tree.events visible = es := by
  induction h with
  | @marker type _ _ _ ih =>
    obtain ⟨properties, rfl⟩ := ih
    exact ⟨.marker type properties, rfl⟩
  | @value _ s => exact ⟨.value s, rfl⟩
  | nested _ ih =>
    obtain ⟨m, rfl⟩ := ih
    exact ⟨.nested m, rfl⟩
  | array _ ih =>
    obtain ⟨elements, rfl⟩ := ih
    exact ⟨.array elements, rfl⟩
  | noProperties => exact ⟨.noProperties, rfl⟩
  | @property name _ _ _ _ ih ih' =>
    obtain ⟨content, rfl⟩ := ih
    obtain ⟨others, rfl⟩ := ih'
    exact ⟨.property name content others, rfl⟩
  | noElements => exact ⟨.noElements, rfl⟩
  | element _ _ ih ih' =>
    obtain ⟨content, rfl⟩ := ih
    obtain ⟨others, rfl⟩ := ih'
    exact ⟨.element content others, rfl⟩

theorem Markers.exists_trees (h : Markers es) : ∃ trees, es = spelled trees := by
  induction h with
  | nil => exact ⟨[], rfl⟩
  | @cons visible _ _ h _ ih =>
    obtain ⟨tree, rfl⟩ := h.exists_tree
    obtain ⟨trees, rfl⟩ := ih
    exact ⟨(visible, tree) :: trees, rfl⟩

end Existence

/-! ## No two trees have the same sequence -/

/-- The event is the first one of a content for the property, or of an element if there is none. -/
def Event.Opens (property : Option String) : Event → Prop
  | .markerStart _ outer _ => outer = property
  | .value outer _ => outer = property
  | .arrayStart name => some name = property
  | _ => False

/-- What may be told behind a part of a marker: behind its properties comes its end, and behind the
elements of an array the end of that. -/
def Form.Ends : Form → List Event → Prop
  | .properties, rest => ∃ type back, rest = .markerEnd type :: back
  | .elements, rest => ∃ name back, rest = .arrayEnd name :: back
  | _, _ => True

namespace MarkerTree

variable {visible : Bool} {rest rest' : List Event}

theorem content_opens {property : Option String} (content : MarkerTree (.content property))
    (visible : Bool) : ∃ e es, content.events visible = e :: es ∧ e.Opens property := by
  cases content with
  | value s => exact ⟨_, _, rfl, rfl⟩
  | nested m =>
    cases m
    exact ⟨_, _, rfl, rfl⟩
  | array elements => exact ⟨_, _, rfl, rfl⟩

/-- Two contents with the same events are for the same property. -/
theorem property_unique {name name' : String} {content : MarkerTree (.content (some name))}
    {content' : MarkerTree (.content (some name'))}
    (h : content.events visible ++ rest = content'.events visible ++ rest') : name = name' := by
  obtain ⟨e, es, hes, hopens⟩ := content.content_opens visible
  obtain ⟨e', es', hes', hopens'⟩ := content'.content_opens visible
  rw [hes, hes'] at h
  obtain ⟨rfl, -⟩ := List.cons.inj h
  cases e with
  | markerStart _ outer _ | value outer _ => exact Option.some.inj (hopens.symm.trans hopens')
  | arrayStart outer => exact (Option.some.inj hopens).symm.trans (Option.some.inj hopens')
  | _ => exact hopens.elim

/-- No content starts with what ends properties or elements. -/
theorem content_ne_end {property : Option String} {content : MarkerTree (.content property)}
    {form : Form} (hends : form.Ends rest') (hform : form = .properties ∨ form = .elements) :
    content.events visible ++ rest ≠ rest' := by
  obtain ⟨e, es, hes, hopens⟩ := content.content_opens visible
  rw [hes]
  rintro rfl
  obtain rfl | rfl := hform
  all_goals
    obtain ⟨_, _, hend⟩ := hends
    cases hend
    exact hopens

/-- The events of a tree are those of no other tree, and where they end is plain from them. -/
theorem events_append_inj {form : Form} {tree tree' : MarkerTree form}
    (h : tree.events visible ++ rest = tree'.events visible ++ rest') (hrest : form.Ends rest)
    (hrest' : form.Ends rest') : tree = tree' ∧ rest = rest' := by
  induction tree generalizing rest rest' with
  | marker type properties ih =>
    cases tree' with
    | marker type' properties' =>
      simp only [events, List.cons_append, List.append_assoc, List.cons.injEq] at h
      obtain ⟨hstart, htail⟩ := h
      cases hstart
      obtain ⟨rfl, hend⟩ := ih htail ⟨_, _, rfl⟩ ⟨_, _, rfl⟩
      cases hend
      exact ⟨rfl, rfl⟩
  | value s =>
    cases tree' with
    | value s' => cases h; exact ⟨rfl, rfl⟩
    | nested m => cases m; cases h
    | array elements => cases h
  | nested m ih =>
    cases tree' with
    | value s' => cases m; cases h
    | nested m' =>
      obtain ⟨rfl, hend⟩ := ih h trivial trivial
      exact ⟨rfl, hend⟩
    | array elements => cases m; cases h
  | array elements ih =>
    cases tree' with
    | value s' => cases h
    | nested m => cases m; cases h
    | array elements' =>
      simp only [events, List.cons_append, List.append_assoc, List.cons.injEq, true_and] at h
      obtain ⟨rfl, hend⟩ := ih h ⟨_, _, rfl⟩ ⟨_, _, rfl⟩
      cases hend
      exact ⟨rfl, rfl⟩
  | noProperties =>
    cases tree' with
    | noProperties => exact ⟨rfl, h⟩
    | property name content others =>
      rw [events, events, List.append_assoc] at h
      exact absurd h.symm (content_ne_end hrest (.inl rfl))
  | property name content others ih ih' =>
    cases tree' with
    | noProperties =>
      rw [events, events, List.append_assoc] at h
      exact absurd h (content_ne_end hrest' (.inl rfl))
    | property name' content' others' =>
      rw [events, events, List.append_assoc, List.append_assoc] at h
      obtain rfl := property_unique h
      obtain ⟨rfl, hothers⟩ := ih h trivial trivial
      obtain ⟨rfl, hend⟩ := ih' hothers hrest hrest'
      exact ⟨rfl, hend⟩
  | noElements =>
    cases tree' with
    | noElements => exact ⟨rfl, h⟩
    | element content others =>
      rw [events, events, List.append_assoc] at h
      exact absurd h.symm (content_ne_end hrest (.inr rfl))
  | element content others ih ih' =>
    cases tree' with
    | noElements =>
      rw [events, events, List.append_assoc] at h
      exact absurd h (content_ne_end hrest' (.inr rfl))
    | element content' others' =>
      rw [events, events, List.append_assoc, List.append_assoc] at h
      obtain ⟨rfl, hothers⟩ := ih h trivial trivial
      obtain ⟨rfl, hend⟩ := ih' hothers hrest hrest'
      exact ⟨rfl, hend⟩

end MarkerTree

/-- The events of the markers of a class spell these markers only. -/
theorem spelled_injective {trees trees' : List (Bool × MarkerTree (.marker none))}
    (h : spelled trees = spelled trees') : trees = trees' := by
  induction trees generalizing trees' with
  | nil =>
    cases trees' with
    | nil => rfl
    | cons p trees' => obtain ⟨visible, ⟨⟩⟩ := p; cases h
  | cons p trees ih =>
    obtain ⟨visible, tree⟩ := p
    cases trees' with
    | nil => cases tree; cases h
    | cons p' trees' =>
      obtain ⟨visible', tree'⟩ := p'
      have hhead : tree.events visible ++ spelled trees = tree'.events visible' ++ spelled trees' := h
      -- The start of a marker says whether it is visible.
      have hvisible : visible = visible' := by
        cases tree
        cases tree'
        simp only [MarkerTree.events, List.cons_append, List.cons.injEq, Event.markerStart.injEq]
          at hhead
        exact hhead.1.2.2
      subst hvisible
      obtain ⟨rfl, htail⟩ := MarkerTree.events_append_inj hhead trivial trivial
      rw [ih htail]

end MarkerIndex.ClassFile
