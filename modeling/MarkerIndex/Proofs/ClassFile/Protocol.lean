/-
The order in which a descriptor is told: its header, its markers, the finish. A marker is told as
its start, its properties and its end, an array as its start, its elements and its end, and what a
marker contains is told with the visibility of the marker around everything. Whatever the bytes are,
the script of a descriptor is a sequence of this form, or the beginning of one when a fault of the
bytes ends it. In it no more markers and arrays are open at once than the limit on nesting allows,
every character is one unit of 16 bits, and names of classes have no slashes.
-/
import MarkerIndex.Proofs.ClassFile.Faults
import MarkerIndex.Proofs.ClassFile.Naming
import MarkerIndex.Proofs.ClassFile.Telling

namespace MarkerIndex.ClassFile

variable {α β : Type}

/-! ## Scripts of a form -/

/-- Without a fault the events have the form `L`, and with one they begin a sequence of that form. -/
inductive Follows (L : List Event → Prop) : List Event → Except Fault α → Prop
  | whole {es : List Event} (a : α) (h : L es) : Follows L es (.ok a)
  | broken {es word : List Event} {f : Fault} (h : L word) (hbegins : es <+: word)
      (hf : f.OfBytes) : Follows L es (.error f)

/-- On all bytes the telling has a script that follows the form `L`. -/
def Speaks (w : Telling α) (L : List Event → Prop) : Prop :=
  ∀ bytes, ∃ es answer rest, Tells w bytes es answer rest ∧ Follows L es answer

section Speaks

variable {L M N : List Event → Prop}

theorem Follows.nonempty {es : List Event} {answer : Except Fault α} (h : Follows L es answer) :
    ∃ word, L word := by
  cases h with
  | whole _ h => exact ⟨es, h⟩
  | broken h _ _ => exact ⟨_, h⟩

theorem Follows.imp {es : List Event} {answer : Except Fault α} (h : Follows L es answer)
    (himp : ∀ es, L es → M es) : Follows M es answer := by
  cases h with
  | whole a h => exact .whole a (himp _ h)
  | broken h hbegins hf => exact .broken (himp _ h) hbegins hf

theorem Speaks.nonempty {w : Telling α} (h : Speaks w L) : ∃ word, L word := by
  obtain ⟨_, _, _, _, hfollows⟩ := h []
  exact hfollows.nonempty

theorem Speaks.imp {w : Telling α} (h : Speaks w L) (himp : ∀ es, L es → M es) : Speaks w M := by
  intro bytes
  obtain ⟨es, answer, rest, htells, hfollows⟩ := h bytes
  exact ⟨es, answer, rest, htells, hfollows.imp himp⟩

theorem speaks_done (a : α) (h : L []) : Speaks (fun _ _ => Walk.done a) L :=
  fun bytes => ⟨[], _, bytes, tells_done a bytes, .whole a h⟩

theorem speaks_fail {f : Fault} (hf : f.OfBytes) (h : ∃ word, L word) :
    Speaks (fun _ _ => (Walk.fail f : Walk _ α)) L := by
  obtain ⟨word, h⟩ := h
  exact fun bytes => ⟨[], _, bytes, tells_fail f bytes, .broken h List.nil_prefix hf⟩

theorem speaks_atEnd {f : Fault} (hf : f.OfBytes) (h : L []) :
    Speaks (fun _ _ => Walk.atEnd f) L := by
  intro bytes
  refine ⟨[], _, bytes, tells_atEnd f bytes, ?_⟩
  split
  · exact .broken h List.nil_prefix hf
  · exact .whole () h

/-- Reading tells nothing, so what follows an answer has the form of the whole. -/
theorem speaks_read_answer {r : Reader α} {A : α → Prop} {f : α → Telling β} (hr : r.Plain)
    (hA : ∀ bytes a rest, r bytes = (.ok a, rest) → A a) (hexists : ∃ a, A a)
    (hf : ∀ a, A a → Speaks (f a) L) : Speaks (fun σ v => Walk.read r >>= fun a => f a σ v) L := by
  intro bytes
  have hread := tells_read r bytes
  rcases hbytes : r bytes with ⟨flaw | a, mid⟩
  · rw [hbytes] at hread
    -- Nothing is told yet, so that any answer gives a word to begin.
    obtain ⟨a, ha⟩ := hexists
    obtain ⟨word, h⟩ := (hf a ha).nonempty
    exact ⟨[], _, mid, hread.bind_error, .broken h List.nil_prefix (hr bytes flaw mid hbytes)⟩
  · rw [hbytes] at hread
    obtain ⟨es, answer, rest, htells, hfollows⟩ := hf a (hA bytes a mid hbytes) mid
    exact ⟨es, answer, rest, hread.bind htells, hfollows⟩

theorem speaks_read [Nonempty α] {r : Reader α} {f : α → Telling β} (hr : r.Plain)
    (hf : ∀ a, Speaks (f a) L) : Speaks (fun σ v => Walk.read r >>= fun a => f a σ v) L :=
  speaks_read_answer (A := fun _ => True) hr (fun _ _ _ _ => trivial)
    ⟨Classical.arbitrary α, trivial⟩ fun a _ => hf a

/-- Events of one form and then events of another one. -/
theorem Speaks.bind {w : Telling Unit} {f : Unit → Telling β} (hw : Speaks w L)
    (hf : Speaks (f ()) M) (h : ∀ es es', L es → M es' → N (es ++ es')) :
    Speaks (fun σ v => w σ v >>= fun a => f a σ v) N := by
  intro bytes
  obtain ⟨es, answer, mid, htells, hfollows⟩ := hw bytes
  cases hfollows with
  | broken hL hbegins hflaw =>
    -- What the second telling might have told completes the word of the first.
    obtain ⟨word, hM⟩ := hf.nonempty
    exact ⟨es, _, mid, htells.bind_error,
      .broken (h _ word hL hM) (hbegins.trans (List.prefix_append _ _)) hflaw⟩
  | whole _ hL =>
    obtain ⟨es', answer, rest, htells', hfollows'⟩ := hf mid
    refine ⟨es ++ es', answer, rest, htells.bind htells', ?_⟩
    cases hfollows' with
    | whole a hM => exact .whole a (h _ _ hL hM)
    | broken hM hbegins hflaw =>
      exact .broken (h _ _ hL hM) ((List.prefix_append_right_inj es).2 hbegins) hflaw

theorem speaks_tell {e : Event} (he : e ≠ .finish) (h : L [e]) :
    Speaks (fun _ v => Walk.tell v e) L :=
  fun bytes => ⟨[e], _, bytes, tells_tell he bytes, .whole () h⟩

/-- An event, and what is told behind it. -/
theorem speaks_tell_bind {e : Event} {f : Unit → Telling β} (he : e ≠ .finish)
    (hf : Speaks (f ()) M) (h : ∀ es, M es → N (e :: es)) :
    Speaks (fun σ v => Walk.tell v e >>= fun a => f a σ v) N := by
  refine (speaks_tell he (L := fun es => es = [e]) rfl).bind hf ?_
  rintro _ es rfl hM
  exact h es hM

theorem speaks_times {w : Telling Unit} (n : Nat) (hw : Speaks w L) (hnil : M [])
    (happend : ∀ es es', L es → M es' → M (es ++ es')) :
    Speaks (fun σ v => Walk.times n (w σ v)) M := by
  induction n with
  | zero => exact speaks_done () hnil
  | succ n ih => exact hw.bind (f := fun _ σ v => Walk.times n (w σ v)) ih happend

theorem Speaks.within {w : Telling α} (body : Bytes) (hw : Speaks w L) :
    Speaks (fun σ v => Walk.within body (w σ v)) L := by
  intro bytes
  obtain ⟨es, answer, _, htells, hfollows⟩ := hw body
  exact ⟨es, answer, _, htells.within bytes, hfollows⟩

end Speaks

/-! ## The order of events -/

/-- The parts of what is told of a marker. -/
inductive Form where
  /-- A marker, as the value of a property of the marker around it if it has a name. -/
  | marker (property : Option String)
  /-- The value of a property, or an element of an array if it has no name. -/
  | content (property : Option String)
  | properties
  | elements

/-- The events of a part of a marker. -/
inductive Phrase (visible : Bool) : Form → List Event → Prop
  | marker {type : String} {property : Option String} {es : List Event}
      (h : Phrase visible .properties es) : Phrase visible (.marker property)
        (.markerStart type property visible :: (es ++ [.markerEnd type]))
  | value {property : Option String} {s : Scalar} :
      Phrase visible (.content property) [.value property s]
  | nested {property : Option String} {es : List Event} (h : Phrase visible (.marker property) es) :
      Phrase visible (.content property) es
  | array {name : String} {es : List Event} (h : Phrase visible .elements es) :
      Phrase visible (.content (some name)) (.arrayStart name :: (es ++ [.arrayEnd name]))
  | noProperties : Phrase visible .properties []
  | property {name : String} {es es' : List Event} (h : Phrase visible (.content (some name)) es)
      (h' : Phrase visible .properties es') : Phrase visible .properties (es ++ es')
  | noElements : Phrase visible .elements []
  | element {es es' : List Event} (h : Phrase visible (.content none) es)
      (h' : Phrase visible .elements es') : Phrase visible .elements (es ++ es')

/-- The events of the markers of a class, each visible or not with everything inside it. -/
inductive Markers : List Event → Prop
  | nil : Markers []
  | cons {visible : Bool} {es es' : List Event} (h : Phrase visible (.marker none) es)
      (h' : Markers es') : Markers (es ++ es')

/-- The events of a whole descriptor. -/
def Protocol (word : List Event) : Prop :=
  ∃ header es, Markers es ∧ word = .header header :: (es ++ [.finish])

theorem Phrase.ne_finish {visible : Bool} {form : Form} {es : List Event}
    (h : Phrase visible form es) : ∀ e ∈ es, e ≠ .finish := by
  induction h with
  | marker _ ih | array _ ih =>
    intro e he
    simp only [List.mem_cons, List.mem_append, List.not_mem_nil, or_false] at he
    rcases he with rfl | he | rfl
    · simp
    · exact ih e he
    · simp
  | value => intro e he; rw [List.mem_singleton.1 he]; simp
  | nested _ ih => exact ih
  | noProperties | noElements => intro e he; cases he
  | property _ _ ih ih' | element _ _ ih ih' =>
    intro e he
    exact (List.mem_append.1 he).elim (ih e) (ih' e)

theorem Markers.ne_finish {es : List Event} (h : Markers es) : ∀ e ∈ es, e ≠ .finish := by
  induction h with
  | nil => intro e he; cases he
  | cons h _ ih =>
    intro e he
    exact (List.mem_append.1 he).elim (h.ne_finish e) (ih e)

/-! ## What is read -/

/-- The names in a header have no slashes. -/
structure Header.Dotted (h : Header) : Prop where
  name : '/' ∉ h.name.toList
  super : ∀ super ∈ h.super, '/' ∉ super.toList
  interfaces : ∀ interface ∈ h.interfaces, '/' ∉ interface.toList

section Answers

open Reader (bind_ok)

variable {t : ConstantTable} {bytes rest : Bytes}

theorem dotted_className {i : UInt16} {name : String} (h : t.className i = .ok name) :
    '/' ∉ name.toList := by
  unfold ConstantTable.className at h
  rcases hget : t.get i with f | c
  · rw [hget] at h; cases h
  rw [hget] at h
  cases c with
  | «class» k =>
    change (t.utf8 k >>= fun s => pure (Descriptor.ofInternal s)) = _ at h
    rcases hutf8 : t.utf8 k with f | s
    · rw [hutf8] at h; cases h
    · rw [hutf8] at h
      cases h
      exact Descriptor.slash_notMem_ofInternal s
  | _ => cases h

theorem dotted_readIndexed {name : String} (h : readIndexed t.className bytes = (.ok name, rest)) :
    '/' ∉ name.toList := by
  obtain ⟨i, mid, -, hlook⟩ := bind_ok.1 h
  exact dotted_className (Prod.mk.inj hlook).1

theorem dotted_readClassNames {n : Nat} {done names : List String}
    (h : readClassNames t n done bytes = (.ok names, rest))
    (hdone : ∀ name ∈ done, '/' ∉ name.toList) : ∀ name ∈ names, '/' ∉ name.toList := by
  induction n generalizing done bytes with
  | zero =>
    cases h
    intro name hname
    exact hdone name (List.mem_reverse.1 hname)
  | succ n ih =>
    obtain ⟨name, mid, hname, hnames⟩ := bind_ok.1 h
    exact ih hnames (List.forall_mem_cons.2 ⟨dotted_readIndexed hname, hdone⟩)

theorem dotted_readHeader {header : Header} (h : readHeader bytes = (.ok (header, t), rest)) :
    header.Dotted := by
  obtain ⟨number, _, -, h⟩ := bind_ok.1 h
  split at h
  next => cases h
  obtain ⟨minor, _, -, h⟩ := bind_ok.1 h
  obtain ⟨major, _, -, h⟩ := bind_ok.1 h
  obtain ⟨t', _, -, h⟩ := bind_ok.1 h
  obtain ⟨flags, _, -, h⟩ := bind_ok.1 h
  obtain ⟨name, _, hname, h⟩ := bind_ok.1 h
  obtain ⟨superIndex, mid, -, h⟩ := bind_ok.1 h
  have hend : ∀ {super : Option String} {mid}, (∀ name ∈ super, '/' ∉ name.toList) → (do
      let count ← Reader.u16
      let interfaces ← readClassNames t' count.toNat []
      return ((⟨minor, major, flags, name, super, interfaces⟩ : Header), t')) mid =
        (.ok (header, t), rest) → header.Dotted := by
    intro super mid hsuper h
    obtain ⟨count, _, -, h⟩ := bind_ok.1 h
    obtain ⟨interfaces, _, hinterfaces, h⟩ := bind_ok.1 h
    cases h
    exact ⟨dotted_readIndexed hname, hsuper, dotted_readClassNames hinterfaces (by simp)⟩
  split at h
  next => exact hend (by simp) h
  next =>
    obtain ⟨super, _, hsuper, h⟩ := bind_ok.1 h
    refine hend ?_ h
    obtain ⟨name, _, hname, hsome⟩ := bind_ok.1 hsuper
    cases hsome
    rintro _ ⟨⟩
    exact dotted_className (Prod.mk.inj hname).1

theorem narrow_scalarOfUnit {n : Int32} (h : n.toInt ≤ 65535) : (scalarOfUnit n).Narrow := by
  unfold scalarOfUnit
  dsimp only
  split
  next => trivial
  next hunit =>
    show (Char.ofNat n.toInt.toNat).toNat < 0x10000
    rw [Text.Utf16.toNat_ofNat (by omega) (by omega)]
    omega

/-- A character is read from one unit of 16 bits. -/
theorem narrow_readScalar {kind : Kind} {s : Scalar} (h : readScalar t kind bytes = (.ok s, rest)) :
    s.Narrow := by
  cases kind with
  | char =>
    obtain ⟨n, _, hn, h⟩ := bind_ok.1 h
    cases h
    obtain ⟨m, _, -, hbounds⟩ := bind_ok.1 hn
    split at hbounds
    next hm =>
      cases hbounds
      exact narrow_scalarOfUnit hm.2
    next => cases hbounds
  | enum =>
    obtain ⟨type, _, -, h⟩ := bind_ok.1 h
    obtain ⟨constant, _, -, h⟩ := bind_ok.1 h
    cases h
    trivial
  | _ =>
    obtain ⟨a, _, -, h⟩ := bind_ok.1 h
    cases h
    trivial

end Answers

/-! ## The size of what is told -/

/-- The events of a part of a marker in which at most `n` markers and arrays are open at once, and
all characters are units of 16 bits. -/
inductive Sized (visible : Bool) : Nat → Form → List Event → Prop
  | marker {n : Nat} {type : String} {property : Option String} {es : List Event}
      (h : Sized visible n .properties es) : Sized visible (n + 1) (.marker property)
        (.markerStart type property visible :: (es ++ [.markerEnd type]))
  | value {n : Nat} {property : Option String} {s : Scalar} (h : s.Narrow) :
      Sized visible n (.content property) [.value property s]
  | nested {n : Nat} {property : Option String} {es : List Event}
      (h : Sized visible n (.marker property) es) : Sized visible n (.content property) es
  | array {n : Nat} {name : String} {es : List Event} (h : Sized visible n .elements es) :
      Sized visible (n + 1) (.content (some name)) (.arrayStart name :: (es ++ [.arrayEnd name]))
  | noProperties {n : Nat} : Sized visible n .properties []
  | property {n : Nat} {name : String} {es es' : List Event}
      (h : Sized visible n (.content (some name)) es) (h' : Sized visible n .properties es') :
      Sized visible n .properties (es ++ es')
  | noElements {n : Nat} : Sized visible n .elements []
  | element {n : Nat} {es es' : List Event} (h : Sized visible n (.content none) es)
      (h' : Sized visible n .elements es') : Sized visible n .elements (es ++ es')

/-- The events of the markers of a class, with at most `n` markers and arrays open at once. -/
inductive SizedMarkers (n : Nat) : List Event → Prop
  | nil : SizedMarkers n []
  | cons {visible : Bool} {es es' : List Event} (h : Sized visible n (.marker none) es)
      (h' : SizedMarkers n es') : SizedMarkers n (es ++ es')

theorem Sized.phrase {visible : Bool} {n : Nat} {form : Form} {es : List Event}
    (h : Sized visible n form es) : Phrase visible form es := by
  induction h with
  | marker _ ih => exact .marker ih
  | value _ => exact .value
  | nested _ ih => exact .nested ih
  | array _ ih => exact .array ih
  | noProperties => exact .noProperties
  | property _ _ ih ih' => exact .property ih ih'
  | noElements => exact .noElements
  | element _ _ ih ih' => exact .element ih ih'

theorem SizedMarkers.markers {n : Nat} {es : List Event} (h : SizedMarkers n es) : Markers es := by
  induction h with
  | nil => exact .nil
  | cons h _ ih => exact .cons h.phrase ih

theorem SizedMarkers.append {n : Nat} {es es' : List Event} (h : SizedMarkers n es)
    (h' : SizedMarkers n es') : SizedMarkers n (es ++ es') := by
  induction h with
  | nil => exact h'
  | cons hes _ ih => rw [List.append_assoc]; exact .cons hes ih

/-! ## Telling markers -/

instance : Nonempty ElementTag := ⟨.marker⟩

section Elements

variable (t : ConstantTable) (visible : Bool) {n : Nat} {element : Option String → Telling Unit}

/-- The properties of a marker and its end. -/
theorem speaks_properties (h : ∀ p, Speaks (element p) (Sized visible n (.content p)))
    (type : String) :
    Speaks (fun σ v => do
      let count ← Walk.read Reader.u16
      Walk.times count.toNat do
        let name ← Walk.read (readIndexed t.utf8)
        element (some name) σ v
      Walk.tell v (.markerEnd type))
      fun es => ∃ es', Sized visible n .properties es' ∧ es = es' ++ [.markerEnd type] := by
  refine speaks_read Reader.plain_u16 fun count => ?_
  have hproperty : Speaks (fun σ v => Walk.read (readIndexed t.utf8) >>= fun name =>
      element (some name) σ v) fun es => ∃ name, Sized visible n (.content (some name)) es :=
    speaks_read (plain_readIndexed t.plainAnswer_utf8) fun name =>
      (h (some name)).imp fun es hes => ⟨name, hes⟩
  have hproperties := speaks_times count.toNat hproperty (M := Sized visible n .properties)
    .noProperties fun es es' ⟨name, hes⟩ hes' => .property hes hes'
  refine hproperties.bind (speaks_tell (L := fun es => es = [.markerEnd type]) (by simp) rfl) ?_
  rintro es _ hes rfl
  exact ⟨es, hes, rfl⟩

theorem speaks_marker (h : ∀ p, Speaks (element p) (Sized visible n (.content p)))
    (property : Option String) :
    Speaks (fun σ v => tellMarker v t visible (fun p => element p σ v) property)
      (Sized visible (n + 1) (.marker property)) := by
  refine speaks_read (plain_readTypeName t) fun type => ?_
  refine speaks_tell_bind (by simp) (speaks_properties t visible h type) ?_
  rintro _ ⟨es, hes, rfl⟩
  exact .marker hes

/-- The elements of an array and its end. -/
theorem speaks_elements (h : ∀ p, Speaks (element p) (Sized visible n (.content p)))
    (name : String) :
    Speaks (fun σ v => do
      let count ← Walk.read Reader.u16
      Walk.times count.toNat (element none σ v)
      Walk.tell v (.arrayEnd name))
      fun es => ∃ es', Sized visible n .elements es' ∧ es = es' ++ [.arrayEnd name] := by
  refine speaks_read Reader.plain_u16 fun count => ?_
  refine (speaks_times count.toNat (h none) Sized.noElements fun _ _ => Sized.element).bind
    (speaks_tell (L := fun es => es = [.arrayEnd name]) (by simp) rfl) ?_
  rintro es _ hes rfl
  exact ⟨es, hes, rfl⟩

theorem speaks_array (h : ∀ p, Speaks (element p) (Sized visible n (.content p))) (name : String) :
    Speaks (fun σ v => tellArray v (fun p => element p σ v) name)
      (Sized visible (n + 1) (.content (some name))) := by
  refine speaks_tell_bind (by simp) (speaks_elements visible h name) ?_
  rintro _ ⟨es, hes, rfl⟩
  exact .array hes

theorem exists_content (n : Nat) (property : Option String) :
    ∃ es, Sized visible n (.content property) es :=
  ⟨[.value property (.bool true)], .value trivial⟩

/-- What an element opens has less room than the element. -/
theorem speaks_element (limit : Nat) (inner : Option (Option String → Telling Unit))
    (h : ∀ element ∈ inner, ∃ m, n = m + 1 ∧
      ∀ p, Speaks (element p) (Sized visible m (.content p))) (property : Option String) :
    Speaks (fun σ v => tellElement v t visible limit (inner.map fun element p => element p σ v)
      property) (Sized visible n (.content property)) := by
  refine speaks_read plain_readElementTag fun tag => ?_
  cases tag with
  | scalar kind =>
    refine speaks_read_answer (A := Scalar.Narrow) (plain_readScalar t kind)
      (fun bytes s rest => narrow_readScalar) ⟨.bool true, trivial⟩ fun s hs => ?_
    exact speaks_tell (by simp) (.value hs)
  | marker =>
    cases inner with
    | none => exact speaks_fail trivial (exists_content visible n property)
    | some element =>
      obtain ⟨m, rfl, helement⟩ := h element rfl
      exact (speaks_marker t visible helement property).imp fun es => .nested
  | array =>
    cases property with
    | none => exact speaks_fail rfl (exists_content visible n none)
    | some name =>
      cases inner with
      | none => exact speaks_fail trivial (exists_content visible n (some name))
      | some element =>
        obtain ⟨m, rfl, helement⟩ := h element rfl
        exact speaks_array visible helement name

theorem speaks_elementIn (limit room : Nat) (property : Option String) :
    Speaks (fun _ v => elementIn v t visible limit room property)
      (Sized visible room (.content property)) := by
  -- On the room, as `elementIn` recurs: what an element opens has less of it.
  induction room generalizing property with
  | zero => exact speaks_element t visible limit none (by simp) property
  | succ room ih =>
    refine speaks_element t visible limit
      (some fun p _ v => elementIn v t visible limit room p) ?_ property
    rintro _ ⟨⟩
    exact ⟨room, rfl, ih⟩

/-- A marker is told, or nothing when there is no room for one. -/
theorem speaks_markerIn (limit room : Nat) (property : Option String) :
    Speaks (fun _ v => markerIn v t visible limit room property)
      fun es => es = [] ∨ Sized visible room (.marker property) es := by
  cases room with
  | zero => exact speaks_fail trivial ⟨[], .inl rfl⟩
  | succ room =>
    exact (speaks_marker t visible (speaks_elementIn t visible limit room) property).imp
      fun es => .inr

theorem speaks_markers (limit : Nat) (name : String) :
    Speaks (fun _ v => tellMarkers v t visible limit name) (SizedMarkers limit) := by
  refine speaks_read Reader.plain_u16 fun count => ?_
  refine (speaks_times count.toNat (speaks_markerIn t visible limit limit none)
    (M := SizedMarkers limit) .nil ?_).bind (speaks_atEnd (L := fun es => es = []) rfl rfl) ?_
  · rintro es es' (rfl | hes) hes'
    · exact hes'
    · exact .cons hes hes'
  · rintro es _ hes rfl
    rw [List.append_nil]; exact hes

end Elements

/-! ## Telling a descriptor -/

theorem speaks_attribute (o : Options) (t : ConstantTable) :
    Speaks (fun _ v => tellAttribute o v t) (SizedMarkers o.maxNesting) := by
  refine speaks_read ?_ fun p => ?_
  · exact Reader.plain_bind (plain_readIndexed t.plainAnswer_utf8) fun name =>
      Reader.plain_bind Reader.plain_u32 fun length =>
        Reader.plain_bind (Reader.plain_take _) fun body => Reader.plain_pure _
  · obtain ⟨name, body⟩ := p
    dsimp only
    cases markerVisibility? o name with
    | none => exact speaks_done () .nil
    | some visible => exact (speaks_markers t visible o.maxNesting name).within body

/-- What is told of a descriptor before the finish. -/
def tellParts {σ : Type} (o : Options) (v : Visitor σ) : Walk σ Unit := do
  let (header, t) ← Walk.read readHeader
  Walk.tell v (.header header)
  let count ← Walk.read do
    skipMembers
    skipMembers
    Reader.u16
  Walk.times count.toNat (tellAttribute o v t)

theorem tellClass_eq {σ : Type} (o : Options) (v : Visitor σ) :
    tellClass o v = tellParts o v >>= fun _ => Walk.tellLast v .finish := by
  unfold tellClass tellParts
  rw [Walk.bind_bind]
  congr 1
  funext ⟨header, t⟩
  simp only [Walk.bind_bind]

/-- A header with points for slashes, and markers that fit the limit on nesting. -/
def Parts (o : Options) (word : List Event) : Prop :=
  ∃ header es, header.Dotted ∧ SizedMarkers o.maxNesting es ∧ word = .header header :: es

theorem speaks_parts (o : Options) : Speaks (fun _ v => tellParts o v) (Parts o) := by
  refine speaks_read_answer (A := fun p => p.1.Dotted) plain_readHeader
    (fun bytes p rest => dotted_readHeader)
    ⟨⟨⟨0, 0, 0, "", none, []⟩, .empty⟩, ⟨by simp, by simp, by simp⟩⟩ fun p hp => ?_
  obtain ⟨header, t⟩ := p
  refine speaks_tell_bind (by simp) (M := SizedMarkers o.maxNesting) ?_ fun es hes =>
    ⟨header, es, hp, hes, rfl⟩
  refine speaks_read ?_ fun count => ?_
  · exact Reader.plain_bind plain_skipMembers fun _ =>
      Reader.plain_bind plain_skipMembers fun _ => Reader.plain_u16
  · exact speaks_times count.toNat (speaks_attribute o t) .nil fun _ _ => .append

/-- The script of a descriptor: a whole protocol, or the beginning of one before the finish. -/
inductive ScriptOf (es : List Event) : Except Fault Unit → Prop
  | whole (h : Protocol es) : ScriptOf es (.ok ())
  | broken {header : Header} {ms : List Event} {f : Fault} (h : Markers ms)
      (hbegins : es <+: .header header :: ms) (hf : f.OfBytes) : ScriptOf es (.error f)

/-- Every descriptor has a script, and a script without a fault is its parts and the finish. -/
theorem exists_parts (o : Options) (data : Bytes) : ∃ es answer rest,
    Tells (fun _ v => tellClass o v) data es answer rest ∧ ScriptOf es answer ∧
      (answer = .ok () → ∃ word, Parts o word ∧ es = word ++ [.finish]) := by
  obtain ⟨es, answer, mid, htells, hfollows⟩ := speaks_parts o data
  have heq : (fun _ v => tellClass o v : Telling Unit) =
      fun _ v => tellParts o v >>= fun _ => Walk.tellLast v .finish := by
    funext σ v; exact tellClass_eq o v
  rw [heq]
  cases hfollows with
  | whole _ h =>
    refine ⟨_, _, _, htells.bind (tells_tellLast mid), ?_, fun _ => ⟨es, h, rfl⟩⟩
    obtain ⟨header, ms, -, hms, rfl⟩ := h
    exact .whole ⟨header, ms, hms.markers, rfl⟩
  | broken h hbegins hf =>
    obtain ⟨header, ms, -, hms, rfl⟩ := h
    refine ⟨es, _, mid, htells.bind_error, .broken hms.markers hbegins hf, ?_⟩
    intro hanswer
    cases hanswer

theorem exists_script (o : Options) (data : Bytes) : ∃ es answer rest,
    Tells (fun _ v => tellClass o v) data es answer rest ∧ ScriptOf es answer := by
  obtain ⟨es, answer, rest, htells, hscript, -⟩ := exists_parts o data
  exact ⟨es, answer, rest, htells, hscript⟩

/-- What is heard is a whole protocol if the telling finishes, and otherwise the beginning of one
before its finish. -/
theorem Outcome.speaks {σ : Type} {v : Visitor σ} {es word : List Event}
    {answer : Except Fault Unit} {s : σ} {result : Except Fault Flow × σ}
    (h : Outcome v es answer s word result) (hscript : ScriptOf es answer) :
    (result.1 = .ok .finished ∧ Protocol word) ∨
      (result.1 ≠ .ok .finished ∧
        ∃ header ms, Markers ms ∧ word <+: .header header :: ms) := by
  cases h with
  | goes _ =>
    cases hscript with
    | whole h => exact .inl ⟨rfl, h⟩
    | @broken header ms f h hbegins _ =>
      exact .inr ⟨by simp [Except.map], header, ms, h, hbegins⟩
  | @declined front back e _ _ hes he _ _ =>
    have hbegins : front ++ [e] <+: es := ⟨back, by rw [hes]; simp⟩
    refine .inr ⟨by simp, ?_⟩
    cases hscript with
    | broken h hms _ => exact ⟨_, _, h, hbegins.trans hms⟩
    | whole h =>
      obtain ⟨header, ms, hms, rfl⟩ := h
      refine ⟨header, ms, hms, ?_⟩
      rw [← List.cons_append, List.prefix_concat_iff] at hbegins
      obtain hall | hbegins := hbegins
      · exact absurd (List.append_inj_right' hall rfl) (by simpa using he)
      · exact hbegins

end MarkerIndex.ClassFile
