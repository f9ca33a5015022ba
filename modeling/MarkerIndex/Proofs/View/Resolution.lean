/-
What a method of a view answers.

Three places are looked at for the property of the method, in this order: the overlay with all its
layers, in either mode; the marker, of which shallow mode knows the own layer alone; and the default
of the method. The value present first decides, and with it only the method, the mode and the type
of the marker: what else the overlay, the marker and the layers below contain makes no difference.

The answers are given as relations with one rule for each form of return type and value, and a view
answers with an outcome exactly if the rules allow it.
-/
import MarkerIndex.Proofs.View.Sight

namespace MarkerIndex

theorem exists_of_map_ok {ε α β : Type} {f : α → β} {x : Except ε α} {b : β}
    (h : f <$> x = .ok b) : ∃ a, x = .ok a ∧ f a = b := by
  cases x with
  | error e => cases h
  | ok a => exact ⟨a, rfl, Except.ok.inj h⟩

/-- What coerces becomes a scalar or an array of scalars, never anything nested. -/
theorem Value.forms_of_coerce {value coerced : Value} {target : ReturnType}
    (h : value.coerce target = .ok coerced) :
    (∃ s, coerced = .scalar s) ∨ ∃ ss, coerced = .array ss := by
  unfold Value.coerce at h
  split at h
  · obtain ⟨s, -, rfl⟩ := exists_of_map_ok h
    exact .inr ⟨[s], rfl⟩
  · obtain ⟨s, -, rfl⟩ := exists_of_map_ok h
    exact .inl ⟨s, rfl⟩
  · obtain ⟨ss, -, rfl⟩ := exists_of_map_ok h
    exact .inr ⟨ss, rfl⟩
  · cases h

namespace View

/-! ## The value present first -/

/-- The value that a method is answered from, if there is one. -/
def firstPresent {ε : Type} (m : Marker ε) (mode : Mode) (overlay : Option Properties)
    (method : Method) : Option Value :=
  ((overlay.bind (·.get? method.name)).or (mode.look m.properties method.name)).or method.default

/-! ## Answers by rule -/

/-- The values of which a return type of markers makes views. -/
inductive Viewable : ReturnType → Value → Prop
  | marker (i : Interface) (inner : Marker Unit) : Viewable (.marker i) (.marker inner)
  | markers (i : Interface) (inner : List (Marker Unit)) : Viewable (.markers i) (.markers inner)
  | single (i : Interface) (inner : Marker Unit) : Viewable (.markers i) (.marker inner)
  | none (i : Interface) : Viewable (.markers i) (.array [])

/-- What a method of a view in the mode, on a marker of the type, makes of a value. -/
inductive Converts (type : String) (mode : Mode) (method : Method) :
    Value → Except Fault ViewValue → Prop
  | view {i : Interface} {inner : Marker Unit} (returns : method.returns = .marker i) :
      Converts type mode method (.marker inner) (.ok (.view (make inner i mode none)))
  | views {i : Interface} {inner : List (Marker Unit)} (returns : method.returns = .markers i) :
      Converts type mode method (.markers inner)
        (.ok (.views (inner.map fun each => make each i mode none)))
  | single {i : Interface} {inner : Marker Unit} (returns : method.returns = .markers i) :
      Converts type mode method (.marker inner) (.ok (.views [make inner i mode none]))
  /-- An empty array has no form of its own. -/
  | noViews {i : Interface} (returns : method.returns = .markers i) :
      Converts type mode method (.array []) (.ok (.views []))
  | unviewable {value : Value} (returns : method.returns.isMarker = true)
      (form : ¬Viewable method.returns value) :
      Converts type mode method value (.error (.conversion type method.name value.text
        method.returns.text (.incompatible value.formName method.returns.text)))
  | scalar {value : Value} {s : Scalar} (returns : method.returns.isMarker = false)
      (coerced : value.coerce method.returns = .ok (.scalar s)) :
      Converts type mode method value (.ok (.scalar s))
  | array {value : Value} {ss : List Scalar} (returns : method.returns.isMarker = false)
      (coerced : value.coerce method.returns = .ok (.array ss)) :
      Converts type mode method value (.ok (.array ss))
  | flawed {value : Value} {flaw : ConversionFlaw} (returns : method.returns.isMarker = false)
      (coerced : value.coerce method.returns = .error flaw) :
      Converts type mode method value
        (.error (.conversion type method.name value.text method.returns.text flaw))

/-- What a method answers from the value present first. -/
inductive Answers (type : String) (mode : Mode) (method : Method) :
    Option Value → Except Fault (Option ViewValue) → Prop
  | missing (required : method.required = true) :
      Answers type mode method none (.error (.missingProperty type method.name))
  | absent (required : method.required = false) : Answers type mode method none (.ok none)
  | present {value : Value} {outcome : Except Fault ViewValue}
      (converts : Converts type mode method value outcome) :
      Answers type mode method (some value) (some <$> outcome)

/-! ## Views answer by the rules -/

variable {v : View} {method : Method} {value : Value}

/-- What a view makes of a value is what the rules for its type and mode allow. -/
theorem converts_convert (v : View) (method : Method) (value : Value) :
    Converts v.type v.mode method value (v.convert method value) := by
  cases hreturns : method.returns.isMarker with
  | false =>
    rw [convert_of_not_isMarker hreturns]
    cases hcoerced : value.coerce method.returns with
    | error flaw => exact .flawed hreturns hcoerced
    | ok coerced =>
      obtain ⟨s, rfl⟩ | ⟨ss, rfl⟩ := Value.forms_of_coerce hcoerced
      · exact .scalar hreturns hcoerced
      · exact .array hreturns hcoerced
  | true =>
    obtain ⟨name, returns, default, required⟩ := method
    cases returns with
    | marker i =>
      cases value with
      | marker inner => exact .view rfl
      | scalar | array | markers => exact .unviewable rfl (by rintro ⟨⟩)
    | markers i =>
      cases value with
      | marker inner => exact .single rfl
      | markers inner => exact .views rfl
      | scalar s => exact .unviewable rfl (by rintro ⟨⟩)
      | array ss =>
        cases ss with
        | nil => exact .noViews rfl
        | cons s ss => exact .unviewable rfl (by rintro ⟨⟩)
    | _ => cases hreturns

/-- The rules leave one outcome for a value. -/
theorem Converts.eq_convert {outcome : Except Fault ViewValue}
    (h : Converts v.type v.mode method value outcome) : v.convert method value = outcome := by
  cases h with
  | view returns | views returns | single returns =>
    simp only [View.convert, returns]
    rfl
  | noViews returns => simp only [View.convert, returns]
  | unviewable returns form =>
    obtain ⟨name, returns', default, required⟩ := method
    cases returns' with
    | marker i =>
      cases value with
      | marker inner => exact absurd (.marker i inner) form
      | _ => rfl
    | markers i =>
      cases value with
      | marker inner => exact absurd (.single i inner) form
      | markers inner => exact absurd (.markers i inner) form
      | scalar s => rfl
      | array ss =>
        cases ss with
        | nil => exact absurd (.none i) form
        | cons s ss => rfl
    | _ => cases returns
  | scalar returns coerced | array returns coerced =>
    rw [convert_of_not_isMarker returns, coerced]
  | flawed returns coerced =>
    rw [convert_of_not_isMarker returns, coerced]
    rfl

/-- A view answers a declared method by the rules, from the value present first. -/
theorem answer_make_iff {ε : Type} (m : Marker ε) (i : Interface) (mode : Mode)
    (overlay : Option Properties) (method : Method) (outcome : Except Fault (Option ViewValue)) :
    (make m i mode overlay).answer method = outcome ↔
      Answers m.type mode method (firstPresent m mode overlay method) outcome := by
  have htype := type_make m i mode overlay
  have hmode : (make m i mode overlay).mode = mode := rfl
  have hvalue : ((make m i mode overlay).marker.get? method.name).or method.default =
      firstPresent m mode overlay method := by
    rw [get?_make]
    rfl
  unfold View.answer
  rw [hvalue, htype]
  cases firstPresent m mode overlay method with
  | none =>
    constructor
    · rintro rfl
      cases hrequired : method.required with
      | true => exact .missing hrequired
      | false => exact .absent hrequired
    · intro h
      cases h with
      | missing required | absent required => simp only [required]; rfl
  | some value =>
    constructor
    · rintro rfl
      have hconverts := converts_convert (make m i mode overlay) method value
      rw [htype, hmode] at hconverts
      exact .present hconverts
    · rintro ⟨⟩
      rename_i outcome hconverts
      rw [← htype, ← hmode] at hconverts
      exact congrArg (some <$> ·) hconverts.eq_convert

/-- Invoking a method on the view of a marker: a method that is not declared is unknown, and every
other one answers by the rules from the first value present of the overlay's, the marker's and the
default. -/
theorem invoke_make_iff {ε : Type} (m : Marker ε) (i : Interface) (mode : Mode)
    (overlay : Option Properties) (name : String) (outcome : Except Fault (Option ViewValue)) :
    (make m i mode overlay).invoke name = outcome ↔
      match i.method? name with
      | none => outcome = .error (.unknownMethod i.type name)
      | some method => Answers m.type mode method (firstPresent m mode overlay method) outcome := by
  unfold View.invoke
  rw [show (make m i mode overlay).interface = i from rfl]
  cases i.method? name with
  | none => exact eq_comm
  | some method => exact answer_make_iff m i mode overlay method outcome

/-- A layer below the overlay counts in shallow mode, a layer below the marker does not. -/
example :
    let low (n : Int8) : Properties := (Layered.empty.insert "size" (.scalar (.byte n))).withParent
    let m : Marker Unit := ⟨"M", low 1, none⟩
    let i : Interface := ⟨"M", [⟨"size", .int, some (.scalar (.byte 2)), false⟩]⟩
    (make m i .shallow (some (low 3))).invoke "size" = .ok (some (.scalar (.int 3))) ∧
      (make m i .shallow none).invoke "size" = .ok (some (.scalar (.int 2))) ∧
      (make m i .deep none).invoke "size" = .ok (some (.scalar (.int 1))) :=
  ⟨rfl, rfl, rfl⟩

end View
end MarkerIndex
