/-
The types of coerced values.

Every scalar is of one scalar type, a constant of that of its own enumeration; an array is of an
array type if all its scalars are of the element type. What a value is coerced to is of the type
that was asked for, and a value of a type is coerced to itself. A number of 32 bits is excepted from
the second: it goes through 64 bits and back.

So a coerced value is never nested, and a view never refuses an answer for that.
-/
import MarkerIndex.Proofs.View.Resolution
import MarkerIndex.Proofs.View.Widths

namespace MarkerIndex

/-! ## Scalars -/

namespace Scalar

/-- The scalar type of a scalar. -/
def type : Scalar → ReturnType
  | .bool _ => .bool
  | .char _ => .char
  | .byte _ => .byte
  | .short _ => .short
  | .int _ => .int
  | .long _ => .long
  | .float _ => .float
  | .double _ => .double
  | .string _ => .string
  | .enum type _ => .enum type
  | .class _ => .class

variable {s coerced : Scalar} {target : ReturnType}

theorem type_of_coerce (h : s.coerce target = .ok coerced) : coerced.type = target := by
  cases target with
  | bool | char | byte | short | int | long | float | double | «class» =>
    obtain ⟨_, -, rfl⟩ := exists_of_map_ok h
    rfl
  | string =>
    cases h
    rfl
  | enum type =>
    unfold coerce constantOf at h
    cases s with
    | enum stored constant =>
      dsimp only at h
      split at h
      next hstored =>
        cases h
        exact congrArg ReturnType.enum hstored
      next => cases h
    | string text =>
      cases h
      rfl
    | _ => cases h
  | array | marker | markers => cases h

/-- A scalar of a width has a number that the width holds. -/
theorem exists_number {w : Width} (h : s.type = w.type) :
    ∃ n, w.Holds n ∧ s = w.scalar n ∧ s.text = toString n := by
  -- The scalar of the number is the scalar itself, so the number it denotes is in the range.
  suffices hnumber : ∃ n, s.Denotes n ∧ s = w.scalar n ∧ s.text = toString n by
    obtain ⟨n, hn, hs, htext⟩ := hnumber
    exact ⟨n, denotes_scalar_iff.1 (hs ▸ hn), hs, htext⟩
  cases w with
  | byte =>
    cases s with
    | byte m => exact ⟨m.toInt, rfl, by rw [Width.scalar, Int8.ofInt_toInt], rfl⟩
    | _ => cases h
  | short =>
    cases s with
    | short m => exact ⟨m.toInt, rfl, by rw [Width.scalar, Int16.ofInt_toInt], rfl⟩
    | _ => cases h
  | int =>
    cases s with
    | int m => exact ⟨m.toInt, rfl, by rw [Width.scalar, Int32.ofInt_toInt], rfl⟩
    | _ => cases h
  | long =>
    cases s with
    | long m => exact ⟨m.toInt, rfl, by rw [Width.scalar, Int64.ofInt_toInt], rfl⟩
    | _ => cases h

theorem coerce_of_width {w : Width} (h : s.type = w.type) : s.coerce w.type = .ok s := by
  obtain ⟨n, hn, rfl, -⟩ := exists_number h
  exact coerce_eq_ok_iff.2 ⟨n, denotes_scalar_iff.2 hn, hn, rfl⟩

/-- A scalar is coerced to itself by its own type. -/
theorem coerce_type (s : Scalar) (h : s.type ≠ .float) : s.coerce s.type = .ok s := by
  cases s with
  | byte => exact coerce_of_width (w := .byte) rfl
  | short => exact coerce_of_width (w := .short) rfl
  | int => exact coerce_of_width (w := .int) rfl
  | float => exact absurd rfl h
  | enum => exact if_pos rfl
  | bool | char | long | double | string | «class» => rfl

end Scalar

/-! ## Values -/

/-- A list is converted exactly if each of its elements is. -/
theorem mapM_eq_ok_iff {ε α β : Type} {f : α → Except ε β} {xs : List α} {ys : List β} :
    xs.mapM f = .ok ys ↔ List.Forall₂ (fun x y => f x = .ok y) xs ys := by
  induction xs generalizing ys with
  | nil => cases ys <;> simp [pure, Except.pure]
  | cons x xs ih =>
    rw [List.mapM_cons]
    cases hx : f x with
    | error e => cases ys <;> simp [bind, Except.bind, hx]
    | ok y =>
      cases hxs : xs.mapM f <;> cases ys <;>
        simp [bind, Except.bind, pure, Except.pure, ← ih, hx, hxs]

theorem Scalar.types_of_coerce {element : ReturnType} {ss coerced : List Scalar}
    (h : List.Forall₂ (fun s r => s.coerce element = .ok r) ss coerced) :
    ∀ r ∈ coerced, r.type = element := by
  induction h with
  | nil => simp
  | cons hr _ ih => exact List.forall_mem_cons.2 ⟨type_of_coerce hr, ih⟩

/-- The values of a type that is not one of markers. -/
inductive Value.OfType : ReturnType → Value → Prop
  | scalar (s : Scalar) : OfType s.type (.scalar s)
  | array {element : ReturnType} {ss : List Scalar} (elements : ∀ s ∈ ss, s.type = element) :
      OfType (.array element) (.array ss)

namespace Value

variable {v coerced : Value} {target : ReturnType}

theorem ofType_of_coerce (h : v.coerce target = .ok coerced) : coerced.OfType target := by
  unfold coerce at h
  split at h
  next =>
    obtain ⟨s, hs, rfl⟩ := exists_of_map_ok h
    refine .array fun r hr => ?_
    rw [List.mem_singleton.1 hr]
    exact Scalar.type_of_coerce hs
  next =>
    obtain ⟨s, hs, rfl⟩ := exists_of_map_ok h
    rw [← Scalar.type_of_coerce hs]
    exact .scalar s
  next =>
    obtain ⟨ss, hss, rfl⟩ := exists_of_map_ok h
    exact .array (Scalar.types_of_coerce (mapM_eq_ok_iff.1 hss))
  next => cases h

theorem coerce_of_ofType (h : v.OfType target) (hfloat : target ≠ .float)
    (hfloats : target ≠ .array .float) : v.coerce target = .ok v := by
  cases h with
  | scalar s =>
    -- The type of a scalar is not that of an array.
    have hcoerce : (scalar s).coerce s.type = .scalar <$> s.coerce s.type := by
      cases s <;> rfl
    rw [hcoerce, Scalar.coerce_type s hfloat]
    rfl
  | @array element ss elements =>
    have hss : ss.mapM (fun s => s.coerce element) = .ok ss := by
      refine mapM_eq_ok_iff.2 (List.forall₂_same.2 fun s hs => ?_)
      have helement := elements s hs
      rw [← helement]
      refine Scalar.coerce_type s fun h => hfloats ?_
      rw [← helement, h]
    show Value.array <$> ss.mapM (fun s => s.coerce element) = _
    rw [hss]
    rfl

end Value

/-! ## Views -/

namespace View

/-- What the rules allow for a value is never a refusal. -/
theorem Converts.ne_refused {type : String} {mode : Mode} {method : Method} {value : Value}
    {outcome : Except Fault ViewValue} (h : Converts type mode method value outcome)
    (cause : Refusal) : outcome ≠ .error (.refused cause) := by
  cases h <;> nofun

theorem invoke_ne_refused (v : View) (name : String) (cause : Refusal) :
    v.invoke name ≠ .error (.refused cause) := by
  unfold invoke
  split
  next method _ =>
    unfold answer
    split
    next value _ =>
      have hconverts := converts_convert v method value
      cases houtcome : v.convert method value with
      | ok => nofun
      | error fault =>
        rw [houtcome] at hconverts
        intro h
        cases h
        exact hconverts.ne_refused cause rfl
    next => split <;> nofun
  next => nofun

/-- What a value is coerced to is of the type, and is coerced to itself unless the type is of
numbers of 32 bits; and a view, which coerces the properties of its marker, never refuses. -/
theorem coerce_types :
    (∀ (value coerced : Value) (target : ReturnType), value.coerce target = .ok coerced →
      coerced.OfType target ∧
        (target ≠ .float → target ≠ .array .float → coerced.coerce target = .ok coerced)) ∧
      ∀ {ε : Type} (m : Marker ε) (i : Interface) (mode : Mode) (overlay : Option Properties)
        (name : String) (cause : Refusal),
        (make m i mode overlay).invoke name ≠ .error (.refused cause) := by
  refine ⟨fun value coerced target h => ?_, fun m i mode overlay => invoke_ne_refused _⟩
  have htype := Value.ofType_of_coerce h
  exact ⟨htype, Value.coerce_of_ofType htype⟩

/-- A text is coerced to an array of a number, which is coerced to itself. -/
theorem coerce_types_readNumber :
    (Value.scalar (.string " -7")).coerce (.array .byte) = .ok (.array [.byte (-7)]) ∧
      (Value.array [.byte (-7)]).OfType (.array .byte) ∧
      (Value.array [.byte (-7)]).coerce (.array .byte) = .ok (.array [.byte (-7)]) := by
  have hread : (Value.scalar (.string " -7")).coerce (.array .byte) = .ok (.array [.byte (-7)]) :=
    rfl
  obtain ⟨htype, hself⟩ := coerce_types.1 _ _ _ hread
  exact ⟨hread, htype, hself nofun nofun⟩

end View
end MarkerIndex
