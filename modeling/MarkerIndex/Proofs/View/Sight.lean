/-
What can be seen through views. From a view one invokes a method, goes on with the view it answers
or with one of several, invokes a method there, and so on along a path. What is seen on the way is
the same for two markers that are alike in what views find in them: deep views find what resolves,
so equal markers cannot be told apart whatever their layers are, and shallow views find the own
layer alone, of the marker and of every marker inside it, so the layers below are never seen.

Two views on alike markers are twins: they have one interface and find alike values under every
name. Twins give alike answers, and the views in alike answers are twins again.
-/
import MarkerIndex.Proofs.Value.Extensionality
import MarkerIndex.View.Basic

namespace MarkerIndex

/-! ## Seeing -/

/-- What is seen of an answer before anything is invoked on the views in it. -/
inductive Sight where
  | absent
  | scalar (value : Scalar)
  | array (values : List Scalar)
  | view
  | views (count : Nat)
  | fault (cause : Fault)
  deriving DecidableEq, Repr

def ViewValue.sight : ViewValue → Sight
  | .scalar s => .scalar s
  | .array ss => .array ss
  | .view _ => .view
  | .views vs => .views vs.length

def Sight.ofAnswer : Except Fault (Option ViewValue) → Sight
  | .ok none => .absent
  | .ok (some value) => value.sight
  | .error f => .fault f

/-- A step on a path through views: a method, and which of the views to go on with if the method
answers several. -/
structure Turn where
  method : String
  index : Nat
  deriving DecidableEq, Repr

/-- The view to go on with. -/
def ViewValue.pick (index : Nat) : ViewValue → Option View
  | .view v => some v
  | .views vs => vs[index]?
  | _ => none

namespace View

/-- The view behind a step. -/
def next (v : View) (turn : Turn) : Option View :=
  match v.invoke turn.method with
  | .ok (some value) => value.pick turn.index
  | _ => none

/-- What is seen at every step of a path, up to the first one behind which there is no view. -/
def trace : View → List Turn → List Sight
  | _, [] => []
  | v, turn :: path => .ofAnswer (v.invoke turn.method) ::
    match v.next turn with
    | some w => w.trace path
    | none => []

end View

/-! ## Alike in a mode -/

/-- What a view in the mode finds in the properties of a marker. -/
def Mode.look : Mode → Properties → String → Option Value
  | .deep, p, name => p.get? name
  | .shallow, p, name => p.getOwn? name

/-- Values of one content, as far as views in the mode find it: scalars of one kind with the same
content, markers of one type in which nothing is found under a name or alike values are. -/
inductive Value.AlikeIn (mode : Mode) : Value → Value → Prop
  | scalar (s : Scalar) : AlikeIn mode (.scalar s) (.scalar s)
  | array (ss : List Scalar) : AlikeIn mode (.array ss) (.array ss)
  | marker {a b : Marker Unit} (type : a.type = b.type)
      (values : ∀ key, Option.Rel (AlikeIn mode) (mode.look a.properties key)
        (mode.look b.properties key)) : AlikeIn mode (.marker a) (.marker b)
  | markers {as bs : List (Marker Unit)}
      (each : List.Forall₂ (fun a b => AlikeIn mode (.marker a) (.marker b)) as bs) :
      AlikeIn mode (.markers as) (.markers bs)

/-- Markers of one type in which alike values are found, whatever carries them. -/
structure MarkerOf.AlikeIn {ε δ : Type} (mode : Mode) (a : Marker ε) (b : Marker δ) : Prop where
  type : a.type = b.type
  values : ∀ key, Option.Rel (Value.AlikeIn mode) (mode.look a.properties key)
    (mode.look b.properties key)

theorem Mode.sizeOf_look_lt {mode : Mode} {p : Properties} {key : String} {v : Value}
    (h : mode.look p key = some v) : sizeOf v < sizeOf p := by
  cases mode with
  | deep => exact Layered.sizeOf_lt_of_mem (Properties.mem_resolved_of_get? h)
  | shallow =>
    exact Layered.sizeOf_lt_of_mem_layer (p := p) List.mem_cons_self (Entries.mem_of_get? h)

namespace Value

variable {mode : Mode}

theorem AlikeIn.refl (v : Value) : AlikeIn mode v v := by
  match v with
  | .scalar s => exact .scalar s
  | .array ss => exact .array ss
  | .marker m =>
    refine .marker rfl fun key => rel_refl fun v hv => ?_
    have hsize := Mode.sizeOf_look_lt hv
    exact refl v
  | .markers ms => exact .markers (List.forall₂_same.2 fun m hm => refl (.marker m))
termination_by sizeOf v
decreasing_by
  · have := m.sizeOf_properties_lt
    simp; omega
  · have := List.sizeOf_lt_of_mem hm
    simp; omega

/-- Alike values are alike in what resolves. -/
theorem Alike.alikeIn {v w : Value} (h : v.Alike w) : AlikeIn .deep v w := by
  induction h with
  | scalar s => exact .scalar s
  | array ss => exact .array ss
  | @marker a b type absent _ ih =>
    refine .marker type fun key => ?_
    show Option.Rel _ (a.properties.get? key) (b.properties.get? key)
    rcases hv : a.properties.get? key with _ | v
    · rw [(absent key).1 hv]; exact .none
    · rcases hw : b.properties.get? key with _ | w
      · rw [(absent key).2 hw] at hv; cases hv
      · exact .some (ih key v w hv hw)
  | @markers as bs length _ ih =>
    refine .markers (List.forall₂_iff_get.2 ⟨length, fun i hi hi' => ?_⟩)
    exact ih i _ _ (List.getElem?_eq_getElem hi) (List.getElem?_eq_getElem hi')

/-! ### What is seen of alike values -/

variable {v w : Value}

theorem AlikeIn.types {as bs : List (Marker Unit)}
    (h : List.Forall₂ (fun a b => AlikeIn mode (.marker a) (.marker b)) as bs) :
    as.map (·.type) = bs.map (·.type) := by
  induction h with
  | nil => rfl
  | cons hab _ ih =>
    obtain _ | _ | ⟨type, -⟩ := hab
    rw [List.map_cons, List.map_cons, type, ih]

/-- A nested marker shows in a text by its type alone. -/
theorem AlikeIn.text (h : AlikeIn mode v w) : v.text = w.text := by
  cases h with
  | scalar | array => rfl
  | marker type _ => simp only [Value.text, type]
  | @markers as bs each =>
    have hwords : ∀ ms : List (Marker Unit),
        ms.map (fun m => "@" ++ m.type) = (ms.map (·.type)).map ("@" ++ ·) := by simp
    simp only [Value.text, hwords, AlikeIn.types each]

/-- Only what contains no marker converts. -/
theorem AlikeIn.coerce (h : AlikeIn mode v w) (target : ReturnType) :
    v.coerce target = w.coerce target := by
  cases h <;> rfl

end Value

namespace MarkerOf

variable {ε δ : Type} {a : Marker ε} {b : Marker δ}

theorem alikeIn_of_value {mode : Mode} {a b : Marker Unit}
    (h : Value.AlikeIn mode (.marker a) (.marker b)) : a.AlikeIn mode b := by
  obtain _ | _ | ⟨type, values⟩ := h
  exact ⟨type, values⟩

theorem Alike.alikeIn (h : a.Alike b) : a.AlikeIn .deep b :=
  ⟨h.1, fun key => rel_imp (h.2 key) fun _ _ => Value.Alike.alikeIn⟩

end MarkerOf

/-! ## Twins -/

namespace View

/-- A view finds the resolved value of the overlay, or else what it finds in the marker. -/
theorem get?_make {ε : Type} (m : Marker ε) (i : Interface) (mode : Mode)
    (overlay : Option Properties) (name : String) :
    (make m i mode overlay).marker.get? name =
      (overlay.bind (·.get? name)).or (mode.look m.properties name) := by
  have horphan : m.properties.orphan.get? name = m.properties.getOwn? name :=
    Layered.get?_orphan m.properties name
  cases overlay with
  | none =>
    cases mode with
    | deep => rfl
    | shallow => exact horphan
  | some overlay =>
    have hover : ∀ p : Properties, (overlay.shadowing p).get? name =
        (overlay.get? name).or (p.get? name) := fun p => Layered.get?_shadowing overlay p name
    cases mode with
    | deep => exact hover m.properties
    | shallow => exact (hover m.properties.orphan).trans (congrArg _ horphan)

/-- Views of one mode through one interface that find alike values. -/
structure Twin (v w : View) : Prop where
  interface : v.interface = w.interface
  mode : v.mode = w.mode
  type : v.type = w.type
  values : ∀ name, Option.Rel (Value.AlikeIn v.mode) (v.marker.get? name) (w.marker.get? name)

theorem type_make {ε : Type} (m : Marker ε) (i : Interface) (mode : Mode)
    (overlay : Option Properties) : (make m i mode overlay).type = m.type := by
  cases mode <;> cases overlay <;> rfl

/-- Views on alike markers, with alike overlays above them. -/
theorem twin_make {ε δ : Type} {a : Marker ε} {b : Marker δ} {mode : Mode}
    {overlay overlay' : Option Properties} (i : Interface) (h : a.AlikeIn mode b)
    (hover : ∀ name, Option.Rel (Value.AlikeIn mode) (overlay.bind (·.get? name))
      (overlay'.bind (·.get? name))) :
    Twin (make a i mode overlay) (make b i mode overlay') where
  interface := rfl
  mode := rfl
  type := by rw [type_make, type_make, h.type]
  values name := by
    rw [get?_make, get?_make]
    exact rel_or (hover name) (h.values name)

variable {v w : View}

theorem Twin.nested (h : Twin v w) {a b : Marker Unit} (i : Interface)
    (hab : Value.AlikeIn v.mode (.marker a) (.marker b)) : Twin (v.nested i a) (w.nested i b) := by
  unfold View.nested
  rw [← h.mode]
  exact twin_make i (MarkerOf.alikeIn_of_value hab) fun _ => .none

end View

/-- Answers of one form, in which scalars are the same and views are twins. -/
inductive ViewValue.Twin : ViewValue → ViewValue → Prop
  | scalar (s : Scalar) : Twin (.scalar s) (.scalar s)
  | array (ss : List Scalar) : Twin (.array ss) (.array ss)
  | view {v w : View} (h : View.Twin v w) : Twin (.view v) (.view w)
  | views {vs ws : List View} (h : List.Forall₂ View.Twin vs ws) : Twin (.views vs) (.views ws)

/-- Both fail for the same cause, or both succeed with related answers. -/
inductive SameOutcome {α : Type} (R : α → α → Prop) : Except Fault α → Except Fault α → Prop
  | fault (f : Fault) : SameOutcome R (.error f) (.error f)
  | answer {a b : α} (h : R a b) : SameOutcome R (.ok a) (.ok b)

namespace View

variable {v w : View}

theorem Twin.conversionFault {α : Type} {R : α → α → Prop} (h : Twin v w) (m : Method) {x y : Value}
    (hxy : Value.AlikeIn v.mode x y) (flaw : ConversionFlaw) :
    SameOutcome R (v.conversionFault m x flaw) (w.conversionFault m y flaw) := by
  unfold View.conversionFault
  rw [h.type, hxy.text]
  exact .fault _

/-- What a method that returns no markers answers. -/
theorem convert_of_not_isMarker {m : Method} (h : m.returns.isMarker = false) (x : Value) :
    v.convert m x = match x.coerce m.returns with
      | .ok (.scalar s) => .ok (.scalar s)
      | .ok (.array ss) => .ok (.array ss)
      | .ok _ => .error (.refused (.notScalar m.name))
      | .error flaw => v.conversionFault m x flaw := by
  obtain ⟨name, returns, default, required⟩ := m
  cases returns with
  | marker | markers => cases h
  | _ => rfl

theorem Twin.coerced (h : Twin v w) {m : Method} (hm : m.returns.isMarker = false) {x y : Value}
    (hxy : Value.AlikeIn v.mode x y) :
    SameOutcome ViewValue.Twin (v.convert m x) (w.convert m y) := by
  rw [convert_of_not_isMarker hm, convert_of_not_isMarker hm, hxy.coerce]
  rcases y.coerce m.returns with flaw | (s | ss | _ | _)
  · exact h.conversionFault m hxy flaw
  · exact .answer (.scalar s)
  · exact .answer (.array ss)
  · exact .fault _
  · exact .fault _

theorem Twin.convert (h : Twin v w) (m : Method) {x y : Value} (hxy : Value.AlikeIn v.mode x y) :
    SameOutcome ViewValue.Twin (v.convert m x) (w.convert m y) := by
  obtain ⟨name, returns, default, required⟩ := m
  -- Only a return type of markers looks into the value by itself.
  cases returns with
  | marker i =>
    cases hxy with
    | marker type values => exact .answer (.view (h.nested i (.marker type values)))
    | scalar s => exact h.conversionFault _ (.scalar s) _
    | array ss => exact h.conversionFault _ (.array ss) _
    | markers each => exact h.conversionFault _ (.markers each) _
  | markers i =>
    cases hxy with
    | marker type values =>
      exact .answer (.views (.cons (h.nested i (.marker type values)) .nil))
    | markers each =>
      refine .answer (.views ?_)
      rw [List.forall₂_map_left_iff, List.forall₂_map_right_iff]
      exact each.imp fun a b hab => h.nested i hab
    | scalar s => exact h.conversionFault _ (.scalar s) _
    | array ss =>
      cases ss with
      | nil => exact .answer (.views .nil)
      | cons s ss => exact h.conversionFault _ (.array (s :: ss)) _
  | _ => exact h.coerced rfl hxy

theorem Twin.answer (h : Twin v w) (m : Method) :
    SameOutcome (Option.Rel ViewValue.Twin) (v.answer m) (w.answer m) := by
  unfold View.answer
  have hvalue : Option.Rel (Value.AlikeIn v.mode) ((v.marker.get? m.name).or m.default)
      ((w.marker.get? m.name).or m.default) :=
    rel_or (h.values m.name) (rel_refl fun x _ => .refl x)
  generalize (v.marker.get? m.name).or m.default = x at *
  generalize (w.marker.get? m.name).or m.default = y at *
  cases hvalue with
  | none =>
    dsimp only
    rw [h.type]
    split
    · exact .fault _
    · exact .answer .none
  | @some x y hxy =>
    have hconvert := h.convert m hxy
    dsimp only
    generalize v.convert m x = u at *
    generalize w.convert m y = u' at *
    cases hconvert with
    | fault f => exact .fault f
    | answer hu => exact .answer (.some hu)

/-- Twins answer every method alike. -/
theorem Twin.invoke (h : Twin v w) (method : String) :
    SameOutcome (Option.Rel ViewValue.Twin) (v.invoke method) (w.invoke method) := by
  unfold View.invoke
  rw [h.interface]
  cases w.interface.method? method with
  | none => exact .fault _
  | some m => exact h.answer m

end View

/-! ## Along a path -/

theorem ViewValue.Twin.sight {x y : ViewValue} (h : Twin x y) : x.sight = y.sight := by
  cases h with
  | scalar | array | view => rfl
  | views h => exact congrArg Sight.views h.length_eq

theorem SameOutcome.sight {x y : Except Fault (Option ViewValue)}
    (h : SameOutcome (Option.Rel ViewValue.Twin) x y) : Sight.ofAnswer x = Sight.ofAnswer y := by
  cases h with
  | fault => rfl
  | answer h =>
    cases h with
    | none => rfl
    | some h => exact h.sight

/-- The views to go on with are twins again. -/
theorem ViewValue.Twin.pick {x y : ViewValue} (h : Twin x y) (index : Nat) :
    Option.Rel View.Twin (x.pick index) (y.pick index) := by
  cases h with
  | scalar | array => exact .none
  | view h => exact .some h
  | @views vs ws h =>
    show Option.Rel View.Twin vs[index]? ws[index]?
    induction h generalizing index with
    | nil => exact .none
    | cons hvw _ ih =>
      cases index with
      | zero => exact .some hvw
      | succ index => exact ih index

namespace View

variable {v w : View}

theorem Twin.next (h : Twin v w) (turn : Turn) : Option.Rel Twin (v.next turn) (w.next turn) := by
  have hinvoke := h.invoke turn.method
  unfold View.next
  generalize v.invoke turn.method = x at *
  generalize w.invoke turn.method = y at *
  cases hinvoke with
  | fault => exact .none
  | answer h =>
    cases h with
    | none => exact .none
    | some h => exact h.pick turn.index

/-- Twins cannot be told apart on any path. -/
theorem Twin.trace (h : Twin v w) (path : List Turn) : v.trace path = w.trace path := by
  induction path generalizing v w with
  | nil => rfl
  | cons turn path ih =>
    have hnext := h.next turn
    rw [View.trace, View.trace, (h.invoke turn.method).sight]
    generalize v.next turn = x at *
    generalize w.next turn = y at *
    cases hnext with
    | none => rfl
    | some hxy => exact congrArg _ (ih hxy)

/-! ### Deep views -/

/-- Deep views on equal markers, with equal overlays above them or none, show the same on every
path, however the properties are spread over layers. -/
theorem trace_eq_of_same {ε δ : Type} {a : Marker ε} {b : Marker δ} (ha : a.Distinct)
    (hb : b.Distinct) (h : a.same b = true) {overlay overlay' : Option Properties}
    (hoverlay : ∀ p ∈ overlay, Properties.Distinct p)
    (hoverlay' : ∀ p ∈ overlay', Properties.Distinct p)
    (hover : Option.Rel (fun p q => Properties.same p q = true) overlay overlay') (i : Interface)
    (path : List Turn) :
    (make a i .deep overlay).trace path = (make b i .deep overlay').trace path := by
  have halike : a.Alike b := (ha.same_iff_alike hb).1 h
  refine (twin_make i halike.alikeIn fun name => ?_).trace path
  cases hover with
  | none => exact .none
  | @some p q hpq =>
    have hvalues := ((hoverlay p rfl).same_iff_alike (hoverlay' q rfl)).1 hpq
    exact rel_imp (hvalues name) fun _ _ => Value.Alike.alikeIn

/-- A marker with a text, in the own layer. -/
def flatInner : Marker Unit := ⟨"T", Layered.empty.insert "x" (.scalar (.string "7")), none⟩

/-- The same marker with its text in the layer below. -/
def layeredInner : Marker Unit := ⟨"T", flatInner.properties.withParent, none⟩

def flatOuter : Marker Unit :=
  ⟨"M", (Layered.empty.insert "inner" (.markers [flatInner])).insert "size" (.scalar (.int 1)),
    none⟩

/-- The same content on two layers, in another order. -/
def layeredOuter : Marker Unit :=
  ⟨"M", (Layered.empty.insert "size" (.scalar (.int 1))).shadowing
    ((Layered.empty.insert "size" (.array [])).insert "inner" (.markers [layeredInner])), none⟩

def innerInterface : Interface :=
  ⟨"T", [⟨"x", .int, none, true⟩, ⟨"y", .bool, some (.scalar (.bool true)), false⟩]⟩

def outerInterface : Interface :=
  ⟨"M", [⟨"inner", .markers innerInterface, none, false⟩, ⟨"size", .char, none, true⟩]⟩

def note : Properties := Layered.empty.insert "note" (.scalar (.bool false))

theorem distinct_flatInner : flatInner.Distinct :=
  Properties.distinct_empty.insert "x" (.scalar _)

theorem distinct_flatOuter : flatOuter.Distinct := by
  refine (Properties.distinct_empty.insert "inner" (.markers ?_)).insert "size" (.scalar _)
  intro m hm
  rw [List.mem_singleton.1 hm]
  exact Value.distinct_marker_iff.2 distinct_flatInner

theorem distinct_layeredOuter : layeredOuter.Distinct := by
  refine (Properties.distinct_empty.insert "size" (.scalar _)).shadowing
    ((Properties.distinct_empty.insert "size" (.array _)).insert "inner" (.markers ?_))
  intro m hm
  rw [List.mem_singleton.1 hm]
  exact Value.distinct_marker_iff.2 (Properties.Distinct.withParent distinct_flatInner)

theorem same_flatOuter : flatOuter.same layeredOuter = true := by
  have hinner : flatInner.same layeredInner = true := by
    refine MarkerOf.same_iff.2 ⟨rfl, Properties.same_iff.2 ⟨by decide, fun e he => ?_⟩⟩
    obtain rfl := List.mem_singleton.1 (show e ∈ [("x", Value.scalar (.string "7"))] from he)
    exact ⟨.scalar (.string "7"), rfl, Value.same_scalar.trans (beq_self_eq_true _)⟩
  refine MarkerOf.same_iff.2 ⟨rfl, Properties.same_iff.2 ⟨by decide, ?_⟩⟩
  show ∀ e ∈ [("inner", Value.markers [flatInner]), ("size", .scalar (.int 1))], _
  simp only [List.forall_mem_cons, List.not_mem_nil, IsEmpty.forall_iff, implies_true, and_true]
  constructor
  · exact ⟨.markers [layeredInner], rfl, Value.same_markers.2 (.cons hinner .nil)⟩
  · exact ⟨.scalar (.int 1), rfl, Value.same_scalar.trans (beq_self_eq_true _)⟩

/-- The number behind the first inner view, read from the text. -/
theorem trace_eq_of_same_layered : flatOuter.same layeredOuter = true ∧
    (make flatOuter outerInterface .deep (some note)).trace [⟨"inner", 0⟩, ⟨"x", 0⟩] =
      [.views 1, .scalar (.int 7)] ∧
    (make layeredOuter outerInterface .deep (some note.withParent)).trace
      [⟨"inner", 0⟩, ⟨"x", 0⟩] = [.views 1, .scalar (.int 7)] := by
  have hflat : (make flatOuter outerInterface .deep (some note)).trace [⟨"inner", 0⟩, ⟨"x", 0⟩] =
      [.views 1, .scalar (.int 7)] := by decide
  have hnote : Properties.Distinct note := Properties.distinct_empty.insert "note" (.scalar _)
  have hsame : Properties.same note note.withParent = true := by
    refine Properties.same_iff.2 ⟨by decide, fun e he => ?_⟩
    obtain rfl := List.mem_singleton.1 (show e ∈ [("note", Value.scalar (.bool false))] from he)
    exact ⟨.scalar (.bool false), rfl, Value.same_scalar.trans (beq_self_eq_true _)⟩
  refine ⟨same_flatOuter, hflat, ?_⟩
  rw [← hflat]
  refine (trace_eq_of_same distinct_flatOuter distinct_layeredOuter same_flatOuter ?_ ?_
    (.some hsame) outerInterface _).symm
  · rintro _ ⟨⟩; exact hnote
  · rintro _ ⟨⟩; exact hnote.withParent

/-! ### Shallow views -/

/-- Markers with the same own layer are alike for shallow views. -/
theorem alikeIn_shallow_of_own {ε δ : Type} {a : Marker ε} {b : Marker δ} (type : a.type = b.type)
    (own : a.properties.own = b.properties.own) : a.AlikeIn .shallow b := by
  refine ⟨type, fun key => ?_⟩
  show Option.Rel _ (Entries.get? a.properties.own key) (Entries.get? b.properties.own key)
  rw [own]
  exact rel_refl fun v _ => .refl v

/-- Shallow views on markers that are alike in their own layers, and inside them in the own layers
of the markers there, with the same overlay above them or none, show the same on every path,
whatever the layers below contain. -/
theorem trace_shallow_eq {ε δ : Type} {a : Marker ε} {b : Marker δ} (h : a.AlikeIn .shallow b)
    (overlay : Option Properties) (i : Interface) (path : List Turn) :
    (make a i .shallow overlay).trace path = (make b i .shallow overlay).trace path :=
  (twin_make i h fun _ => rel_refl fun v _ => .refl v).trace path

/-- What a method of the inner interface would answer. -/
def below : Properties := Layered.empty.insert "y" (.scalar (.bool false))

/-- The inner marker with a layer below. -/
def burdenedInner : Marker Unit := ⟨"T", flatInner.properties.shadowing below, none⟩

/-- The outer marker around it, with a layer below of its own. -/
def burdenedOuter : Marker Unit :=
  ⟨"M", ((Layered.empty.insert "inner" (.markers [burdenedInner])).insert "size"
    (.scalar (.int 1))).shadowing note, none⟩

theorem alikeIn_burdenedOuter : flatOuter.AlikeIn .shallow burdenedOuter := by
  have hinner : flatInner.AlikeIn .shallow burdenedInner := alikeIn_shallow_of_own rfl rfl
  refine ⟨rfl, fun key => ?_⟩
  show Option.Rel _
    (Entries.get? [("inner", Value.markers [flatInner]), ("size", .scalar (.int 1))] key)
    (Entries.get? [("inner", Value.markers [burdenedInner]), ("size", .scalar (.int 1))] key)
  simp only [Entries.get?]
  split
  · exact .some (.markers (.cons (.marker hinner.type hinner.values) .nil))
  · split
    · exact .some (.scalar _)
    · exact .none

/-- The default of `y` is answered, not the value in the layer below the inner marker. -/
theorem trace_shallow_eq_burdened : flatOuter.AlikeIn .shallow burdenedOuter ∧
    (make flatOuter outerInterface .shallow (some note)).trace [⟨"inner", 0⟩, ⟨"y", 0⟩] =
      [.views 1, .scalar (.bool true)] ∧
    (make burdenedOuter outerInterface .shallow (some note)).trace [⟨"inner", 0⟩, ⟨"y", 0⟩] =
      [.views 1, .scalar (.bool true)] ∧
    (make burdenedOuter outerInterface .deep (some note)).trace [⟨"inner", 0⟩, ⟨"y", 0⟩] =
      [.views 1, .scalar (.bool false)] := by
  have hflat : (make flatOuter outerInterface .shallow (some note)).trace
      [⟨"inner", 0⟩, ⟨"y", 0⟩] = [.views 1, .scalar (.bool true)] := by decide
  refine ⟨alikeIn_burdenedOuter, hflat, ?_, by decide⟩
  rw [← hflat]
  exact (trace_shallow_eq alikeIn_burdenedOuter (some note) outerInterface _).symm

end View
end MarkerIndex
