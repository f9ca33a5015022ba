/-
What a walk takes: `Takes w bs f` says that on bytes that start with `bs` the walk takes exactly
`bs` and takes its visitor from state to state as `f` does, wherever `f` goes on. So the effect of
telling is stated without the events that were told, and it follows the walk: one change of state
after the other where one walk follows the other, one for each turn where a walk is repeated.
-/
import MarkerIndex.ClassFile.Walk
import MarkerIndex.Proofs.Bytes.Reads
import Mathlib.Data.List.Forall2

namespace MarkerIndex.ClassFile.Walk

open Reader (Reads)

variable {σ α β : Type}

/-! ## Changes of state -/

/-- A second change of state after a first one that goes on. -/
def andAlso (f g : σ → Bool × σ) : σ → Bool × σ := fun s =>
  match f s with
  | (true, s) => g s
  | (false, s) => (false, s)

/-- One change of state after the other, for the elements of a list. -/
def eachOf (f : α → σ → Bool × σ) : List α → σ → Bool × σ
  | [] => fun s => (true, s)
  | x :: xs => andAlso (f x) (eachOf f xs)

theorem eachOf_map (f : β → σ → Bool × σ) (g : α → β) (xs : List α) :
    eachOf f (xs.map g) = eachOf (fun x => f (g x)) xs := by
  induction xs with
  | nil => rfl
  | cons x xs ih => rw [List.map_cons, eachOf, eachOf, ih]

theorem eachOf_append (f : α → σ → Bool × σ) (xs ys : List α) :
    eachOf f (xs ++ ys) = andAlso (eachOf f xs) (eachOf f ys) := by
  induction xs with
  | nil => rfl
  | cons x xs ih =>
    rw [List.cons_append, eachOf, eachOf, ih]
    funext s
    unfold andAlso
    rcases f x s with ⟨_ | _, _⟩ <;> rfl

theorem andAlso_of_goes {f g : σ → Bool × σ} {s s' : σ} (h : f s = (true, s')) :
    andAlso f g s = g s' := by
  unfold andAlso; rw [h]

theorem andAlso_goes {f g : σ → Bool × σ} {s s' : σ} (h : andAlso f g s = (true, s')) :
    ∃ u, f s = (true, u) ∧ g u = (true, s') := by
  unfold andAlso at h
  split at h
  next u hu => exact ⟨u, hu, h⟩
  next => cases h

/-! ## Walks -/

/-- The walk takes `bs` from the front of any bytes, and changes the state as `f` does. -/
def Takes (w : Walk σ Unit) (bs : Bytes) (f : σ → Bool × σ) : Prop :=
  ∀ rest s s', f s = (true, s') → w (bs ++ rest) s = (.ok (), rest, s')

theorem Takes.imp {w : Walk σ Unit} {bs : Bytes} {f g : σ → Bool × σ} (hw : Takes w bs f)
    (h : ∀ s s', g s = (true, s') → f s = (true, s')) : Takes w bs g :=
  fun rest s s' hg => hw rest s s' (h s s' hg)

theorem takes_done : Takes (done ()) [] (fun s : σ => (true, s)) := by
  intro rest s s' h; cases h; rfl

theorem takes_tell (v : Visitor σ) (e : Event) : Takes (tell v e) [] (v.visit e) := by
  intro rest s s' h
  unfold tell; rw [h]; rfl

theorem Takes.bind {w : Walk σ Unit} {u : Unit → Walk σ Unit} {bs cs : Bytes}
    {f g : σ → Bool × σ} (hw : Takes w bs f) (hu : Takes (u ()) cs g) :
    Takes (w >>= u) (bs ++ cs) (andAlso f g) := by
  intro rest s s' h
  obtain ⟨t, hf, hg⟩ := andAlso_goes h
  change andThen w u (bs ++ cs ++ rest) s = _
  rw [List.append_assoc, andThen, hw _ s t hf]
  exact hu rest t s' hg

/-- What is read is taken before what depends on it. -/
theorem takes_read {r : Reader α} {w : α → Walk σ Unit} {bs cs : Bytes} {a : α}
    {f : σ → Bool × σ} (hr : Reads r bs a) (hw : Takes (w a) cs f) :
    Takes (read r >>= w) (bs ++ cs) f := by
  intro rest s s' h
  change andThen (read r) w (bs ++ cs ++ rest) s = _
  rw [List.append_assoc, andThen, read, hr]
  exact hw rest s s' h

/-- Reading that changes no state. -/
theorem takes_read_done {r : Reader α} {bs : Bytes} {a : α} {w : α → Walk σ Unit}
    {f : σ → Bool × σ} (hr : Reads r bs a) (hw : Takes (w a) [] f) : Takes (read r >>= w) bs f := by
  have := takes_read hr hw
  rwa [List.append_nil] at this

theorem takes_times {w : Walk σ Unit} {f : α → σ → Bool × σ} {xs : List α} {bodies : List Bytes}
    (h : List.Forall₂ (fun x bs => Takes w bs (f x)) xs bodies) :
    Takes (times xs.length w) bodies.flatten (eachOf f xs) := by
  induction h with
  | nil => exact takes_done
  | cons hw _ ih => exact hw.bind ih

/-- As many turns as a count says, and what comes behind them. -/
theorem takes_counted {r : Reader UInt16} {k : UInt16} {count : Bytes} {w last : Walk σ Unit}
    {f : α → σ → Bool × σ} {g : σ → Bool × σ} {xs : List α} {bodies : List Bytes}
    (hr : Reads r count k) (hk : k.toNat = xs.length)
    (h : List.Forall₂ (fun x bs => Takes w bs (f x)) xs bodies) (hlast : Takes last [] g) :
    Takes (do
      let n ← read r
      times n.toNat w
      last) (count ++ bodies.flatten) (andAlso (eachOf f xs) g) := by
  refine takes_read hr ?_
  rw [hk]
  have := (takes_times h).bind (u := fun _ => last) hlast
  rwa [List.append_nil] at this

/-! ## Walks that answer -/

section Answers

variable {bytes rest : Bytes} {s s' : σ}

/-- A sequence answers where both its parts do. -/
theorem bind_ok {w : Walk σ α} {f : α → Walk σ β} {b : β} :
    (w >>= f) bytes s = (.ok b, rest, s') ↔
      ∃ a mid u, w bytes s = (.ok a, mid, u) ∧ f a mid u = (.ok b, rest, s') := by
  show andThen w f bytes s = _ ↔ _
  unfold andThen
  constructor
  · intro h
    rcases hw : w bytes s with ⟨_ | a, mid, u⟩
    · rw [hw] at h; cases h
    · rw [hw] at h; exact ⟨a, mid, u, rfl, h⟩
  · rintro ⟨a, mid, u, hw, hf⟩
    rw [hw]; exact hf

theorem read_ok {r : Reader α} {a : α} (h : read r bytes s = (.ok a, rest, s')) :
    r bytes = (.ok a, rest) ∧ s' = s := by
  unfold read at h
  rcases hr : r bytes with ⟨_ | b, left⟩
  · rw [hr] at h; cases h
  · rw [hr] at h; cases h; exact ⟨rfl, rfl⟩

theorem tell_ok {v : Visitor σ} {e : Event} {a : Unit}
    (h : tell v e bytes s = (.ok a, rest, s')) : rest = bytes := by
  unfold tell at h
  split at h <;> cases h
  rfl

theorem atEnd_ok {f : Fault} {a : Unit} (h : atEnd f bytes s = (.ok a, rest, s')) :
    bytes = [] ∧ rest = [] ∧ s' = s := by
  unfold atEnd Reader.hasMore at h
  cases bytes with
  | nil => cases h; exact ⟨rfl, rfl, rfl⟩
  | cons b bytes => cases h

theorem within_ok {body : Bytes} {w : Walk σ α} {a : α}
    (h : within body w bytes s = (.ok a, rest, s')) :
    rest = bytes ∧ ∃ left, w body s = (.ok a, left, s') := by
  unfold within at h
  rcases hw : w body s with ⟨_ | b, left, u⟩
  · rw [hw] at h; cases h
  · rw [hw] at h; cases h; exact ⟨rfl, left, rfl⟩

end Answers

/-! ## Walks over other bytes -/

theorem bind_bind {γ : Type} (w : Walk σ α) (f : α → Walk σ β) (g : β → Walk σ γ) :
    w >>= f >>= g = w >>= fun a => f a >>= g := by
  funext rest s
  change andThen (andThen w f) g rest s = andThen w (fun a => andThen (f a) g) rest s
  unfold andThen
  rcases w rest s with ⟨_ | _, _, _⟩ <;> rfl

/-- A walk that takes all the bytes it is given passes a check that none remain. -/
theorem takes_within {w : Walk σ Unit} {body : Bytes} {f : σ → Bool × σ} (flaw : Fault)
    (hw : Takes w body f) : Takes (within body (w >>= fun _ => atEnd flaw)) [] f := by
  intro rest s s' h
  have hbody := hw [] s s' h
  rw [List.append_nil] at hbody
  have hwhole : (w >>= fun _ => atEnd flaw) body s = (.ok (), [], s') := by
    change andThen w (fun _ => atEnd flaw) body s = _
    rw [andThen, hbody]; rfl
  unfold within
  rw [hwhole]; rfl

end MarkerIndex.ClassFile.Walk
