/-
What is told does not depend on who is told it. On given bytes a telling has a script: the events
that a visitor hears who never declines one, and the answer or fault behind them. Every visitor hears
the script up to the first event that it declines, and if it declines none the telling ends as the
script says. What a visitor hears is recorded by the same visitor with a list beside its state.
-/
import MarkerIndex.ClassFile.Decode
import MarkerIndex.Proofs.ClassFile.Walks
import Mathlib.Data.List.Basic

namespace MarkerIndex.ClassFile

open Walk (eachOf andAlso eachOf_append)

variable {σ α β : Type}

/-! ## Hearing -/

namespace Visitor

/-- The visitor that keeps the events it is told beside its state. -/
def traced (v : Visitor σ) : Visitor (List Event × σ) :=
  ⟨fun e s => ((v.visit e s.2).1, s.1 ++ [e], (v.visit e s.2).2)⟩

/-- The visitor with its answer to the finish, which it cannot decline, left out of account. -/
def obliging (v : Visitor σ) : Visitor σ :=
  ⟨fun e s => ((v.visit e s).1 || e = .finish, (v.visit e s).2)⟩

/-- The events told one after the other, up to the first one that is declined: whether none is, and
the state behind them. -/
def hear (v : Visitor σ) (es : List Event) : σ → Bool × σ := eachOf v.obliging.visit es

variable {v : Visitor σ} {es : List Event} {s t : σ}

@[simp] theorem hear_nil : v.hear [] s = (true, s) := rfl

theorem hear_cons {e : Event} (es : List Event) (h : v.obliging.visit e s = (true, t)) :
    v.hear (e :: es) s = v.hear es t := Walk.andAlso_of_goes h

theorem hear_append (front back : List Event) :
    v.hear (front ++ back) = andAlso (v.hear front) (v.hear back) := eachOf_append _ front back

theorem hear_append_of_goes {front : List Event} (back : List Event)
    (h : v.hear front s = (true, t)) : v.hear (front ++ back) s = v.hear back t := by
  rw [hear_append]; exact Walk.andAlso_of_goes h

/-- A visitor goes on after a sequence of events if it does after each. -/
theorem hear_append_goes {front back : List Event} {u : σ} :
    v.hear (front ++ back) s = (true, u) ↔
      ∃ t, v.hear front s = (true, t) ∧ v.hear back t = (true, u) := by
  rw [hear_append]
  constructor
  · exact Walk.andAlso_goes
  · rintro ⟨t, hfront, hback⟩
    rw [Walk.andAlso_of_goes hfront, hback]

theorem hear_singleton {e : Event} (he : e ≠ .finish) : v.hear [e] s = v.visit e s := by
  show andAlso (v.obliging.visit e) (eachOf v.obliging.visit []) s = v.visit e s
  rcases hv : v.visit e s with ⟨_ | _, _⟩ <;> simp [andAlso, obliging, hv, eachOf, he]

theorem hear_finish : v.hear [.finish] s = (true, (v.visit .finish s).2) := by
  show andAlso (v.obliging.visit .finish) (eachOf v.obliging.visit []) s = _
  simp [andAlso, obliging, eachOf]

/-- An event is declined when the visitor went on after those in front of it and declines it. -/
theorem hear_declined_iff : v.hear es s = (false, t) ↔ ∃ front e back u, es = front ++ e :: back ∧
    e ≠ .finish ∧ v.hear front s = (true, u) ∧ v.visit e u = (false, t) := by
  constructor
  · intro h
    induction es generalizing s with
    | nil => cases h
    | cons e es ih =>
      -- The first event is declined, or the one that is lies among the others.
      rcases hv : v.obliging.visit e s with ⟨_ | _, u⟩
      · have hdeclined : v.hear (e :: es) s = (false, u) := by
          show andAlso (v.obliging.visit e) _ s = _
          unfold andAlso; rw [hv]
        rw [hdeclined] at h
        cases h
        simp only [obliging, Prod.mk.injEq, Bool.or_eq_false_iff, decide_eq_false_iff_not] at hv
        obtain ⟨⟨hanswer, he⟩, rfl⟩ := hv
        exact ⟨[], e, es, s, rfl, he, rfl, Prod.ext hanswer rfl⟩
      · rw [hear_cons es hv] at h
        obtain ⟨front, e', back, u', rfl, he', hfront, hback⟩ := ih h
        exact ⟨e :: front, e', back, u', rfl, he', by rw [hear_cons front hv, hfront], hback⟩
  · rintro ⟨front, e, back, u, rfl, he, hfront, hback⟩
    have hdeclined : v.obliging.visit e u = (false, t) := by simp [obliging, hback, he]
    rw [hear_append_of_goes _ hfront]
    show andAlso (v.obliging.visit e) (eachOf v.obliging.visit back) u = _
    unfold andAlso; rw [hdeclined]

/-- The visitor with a list beside its state keeps what it goes on after. -/
theorem hear_traced (seen : List Event) (h : v.hear es s = (true, t)) :
    v.traced.hear es (seen, s) = (true, (seen ++ es, t)) := by
  induction es generalizing s seen with
  | nil => cases h; simp
  | cons e es ih =>
    obtain ⟨u, hu, hes⟩ := Walk.andAlso_goes h
    have htraced : v.traced.obliging.visit e (seen, s) = (true, (seen ++ [e], u)) := by
      simp only [obliging, Prod.mk.injEq] at hu
      simp [traced, obliging, ← hu.1, ← hu.2]
    rw [hear_cons es htraced, ih _ hes, List.append_assoc]; rfl

/-- And it keeps the event that it declines. -/
theorem hear_traced_declined {front : List Event} {e : Event} {u : σ} (back : List Event)
    (he : e ≠ .finish) (hfront : v.hear front s = (true, u)) (hdeclined : v.visit e u = (false, t)) :
    v.traced.hear (front ++ e :: back) ([], s) = (false, (front ++ [e], t)) := by
  refine hear_declined_iff.2 ⟨front, e, back, (front, u), rfl, he, ?_, ?_⟩
  · exact hear_traced [] hfront
  · simp [traced, hdeclined]

end Visitor

/-! ## Scripts -/

/-- A walk for every visitor. -/
def Telling (α : Type) : Type 1 := (σ : Type) → Visitor σ → Walk σ α

/-- On the bytes the telling has the script `es`: a visitor that goes on after all of it is behind
it, with the answer or fault and with `rest` left, in the state it ends in, and a visitor that
declines an event of it hears no more. -/
def Tells (w : Telling α) (bytes : Bytes) (es : List Event) (answer : Except Fault α)
    (rest : Bytes) : Prop :=
  ∀ (σ : Type) (v : Visitor σ) (s t : σ),
    (v.hear es s = (true, t) → w σ v bytes s = (answer.mapError .fault, rest, t)) ∧
    (v.hear es s = (false, t) → ∃ left, w σ v bytes s = (.error .declined, left, t))

section Tells

variable {w : Telling α} {f : α → Telling β} {bytes mid rest : Bytes} {es es' : List Event}

theorem tells_done (a : α) (bytes : Bytes) : Tells (fun _ _ => Walk.done a) bytes [] (.ok a) bytes := by
  intro σ v s t
  constructor
  · intro h; cases h; rfl
  · intro h; cases h

theorem tells_fail (f : Fault) (bytes : Bytes) :
    Tells (fun _ _ => (Walk.fail f : Walk _ α)) bytes [] (.error f) bytes := by
  intro σ v s t
  constructor
  · intro h; cases h; rfl
  · intro h; cases h

theorem tells_read (r : Reader α) (bytes : Bytes) :
    Tells (fun _ _ => Walk.read r) bytes [] (r bytes).1 (r bytes).2 := by
  intro σ v s t
  constructor
  · intro h
    cases h
    show Walk.read r bytes s = _
    unfold Walk.read
    rcases r bytes with ⟨_ | _, _⟩ <;> rfl
  · intro h; cases h

theorem tells_atEnd (f : Fault) (bytes : Bytes) : Tells (fun _ _ => Walk.atEnd f) bytes []
    (if Reader.hasMore bytes then .error f else .ok ()) bytes := by
  intro σ v s t
  constructor
  · intro h
    cases h
    show Walk.atEnd f bytes s = _
    unfold Walk.atEnd
    split <;> rfl
  · intro h; cases h

theorem tells_tell {e : Event} (he : e ≠ .finish) (bytes : Bytes) :
    Tells (fun _ v => Walk.tell v e) bytes [e] (.ok ()) bytes := by
  intro σ v s t
  rw [Visitor.hear_singleton he]
  constructor
  · intro h
    show Walk.tell v e bytes s = _
    unfold Walk.tell; rw [h]; rfl
  · intro h
    refine ⟨bytes, ?_⟩
    show Walk.tell v e bytes s = _
    unfold Walk.tell; rw [h]

theorem tells_tellLast (bytes : Bytes) :
    Tells (fun _ v => Walk.tellLast v .finish) bytes [.finish] (.ok ()) bytes := by
  intro σ v s t
  rw [Visitor.hear_finish]
  constructor
  · intro h; cases h; rfl
  · intro h; cases h

/-- Where one telling follows another, one script follows the other. -/
theorem Tells.bind {a : α} {answer : Except Fault β} (hw : Tells w bytes es (.ok a) mid)
    (hf : Tells (f a) mid es' answer rest) :
    Tells (fun σ v => w σ v >>= fun a => f a σ v) bytes (es ++ es') answer rest := by
  intro σ v s t
  rw [Visitor.hear_append]
  show (_ → Walk.andThen (w σ v) (fun a => f a σ v) bytes s = _) ∧
    (_ → ∃ left, Walk.andThen (w σ v) (fun a => f a σ v) bytes s = _)
  unfold andAlso Walk.andThen
  -- Events of the first walk that are declined end both walks.
  rcases hes : v.hear es s with ⟨_ | _, u⟩
  · obtain ⟨left, hrun⟩ := (hw σ v s u).2 hes
    rw [hrun]
    constructor
    · intro h; cases h
    · intro h; cases h; exact ⟨left, rfl⟩
  · rw [(hw σ v s u).1 hes]
    exact hf σ v u t

/-- A fault ends the script. -/
theorem Tells.bind_error {flaw : Fault} (hw : Tells w bytes es (.error flaw) rest) :
    Tells (fun σ v => w σ v >>= fun a => f a σ v) bytes es (.error flaw) rest := by
  intro σ v s t
  show (_ → Walk.andThen (w σ v) (fun a => f a σ v) bytes s = _) ∧
    (_ → ∃ left, Walk.andThen (w σ v) (fun a => f a σ v) bytes s = _)
  unfold Walk.andThen
  constructor
  · intro h; rw [(hw σ v s t).1 h]; rfl
  · intro h
    obtain ⟨left, hrun⟩ := (hw σ v s t).2 h
    exact ⟨left, by rw [hrun]⟩

/-- What remains behind a telling of other bytes: all the bytes here, or what a fault leaves of the
others. -/
def remaining (bytes left : Bytes) : Except Fault α → Bytes
  | .ok _ => bytes
  | .error _ => left

theorem Tells.within {body : Bytes} {answer : Except Fault α} (bytes : Bytes)
    (hw : Tells w body es answer rest) :
    Tells (fun σ v => Walk.within body (w σ v)) bytes es answer (remaining bytes rest answer) := by
  intro σ v s t
  show (_ → Walk.within body (w σ v) bytes s = _) ∧
    (_ → ∃ left, Walk.within body (w σ v) bytes s = _)
  unfold Walk.within
  constructor
  · intro h; rw [(hw σ v s t).1 h]; cases answer <;> rfl
  · intro h
    obtain ⟨left, hrun⟩ := (hw σ v s t).2 h
    exact ⟨left, by rw [hrun]⟩

end Tells

/-! ## Telling a descriptor -/

/-- What the visitor hears, from state `s` on, when the descriptor in `data` is told to it. -/
def heard (o : Options) (v : Visitor σ) (data : Bytes) (s : σ) : List Event :=
  (decode o v.traced data ([], s)).2.1

section Decode

variable {o : Options} {data rest : Bytes} {es : List Event} {answer : Except Fault Unit}
  {v : Visitor σ} {s t : σ}

theorem Tells.decode_of_goes (h : Tells (fun _ v => tellClass o v) data es answer rest)
    (hgoes : v.hear es s = (true, t)) :
    decode o v data s = (answer.map fun _ => .finished, t) := by
  have hrun := (h σ v s t).1 hgoes
  dsimp only at hrun
  unfold decode; rw [hrun]
  rcases answer with f | _
  · rfl
  · rfl

theorem Tells.decode_of_stops (h : Tells (fun _ v => tellClass o v) data es answer rest)
    (hstops : v.hear es s = (false, t)) : decode o v data s = (.ok .declined, t) := by
  obtain ⟨left, hrun⟩ := (h σ v s t).2 hstops
  dsimp only at hrun
  unfold decode; rw [hrun]

/-- A visitor that goes on after the whole script hears it, and the telling ends as it says. -/
theorem Tells.heard_of_goes (h : Tells (fun _ v => tellClass o v) data es answer rest)
    (hgoes : v.hear es s = (true, t)) : heard o v data s = es := by
  unfold heard; rw [h.decode_of_goes (Visitor.hear_traced [] hgoes)]; rfl

/-- A visitor that declines an event of the script hears nothing behind it. -/
theorem Tells.declined {front back : List Event} {e : Event} {u : σ}
    (h : Tells (fun _ v => tellClass o v) data (front ++ e :: back) answer rest) (he : e ≠ .finish)
    (hfront : v.hear front s = (true, u)) (hdeclined : v.visit e u = (false, t)) :
    decode o v data s = (.ok .declined, t) ∧ heard o v data s = front ++ [e] := by
  have hstops : v.hear (front ++ e :: back) s = (false, t) :=
    Visitor.hear_declined_iff.2 ⟨front, e, back, u, rfl, he, hfront, hdeclined⟩
  refine ⟨h.decode_of_stops hstops, ?_⟩
  unfold heard
  rw [h.decode_of_stops (Visitor.hear_traced_declined back he hfront hdeclined)]

/-- What is kept beside the state does not change how the telling ends. -/
theorem Tells.decode_traced (h : Tells (fun _ v => tellClass o v) data es answer rest)
    (v : Visitor σ) (s : σ) : decode o v.traced data ([], s) =
      ((decode o v data s).1, heard o v data s, (decode o v data s).2) := by
  suffices hsame : ((decode o v.traced data ([], s)).1, (decode o v.traced data ([], s)).2.2) =
      decode o v data s by
    rw [← hsame]; rfl
  rcases hes : v.hear es s with ⟨_ | _, t⟩
  · obtain ⟨front, e, back, u, rfl, he, hfront, hdeclined⟩ := Visitor.hear_declined_iff.1 hes
    rw [h.decode_of_stops (Visitor.hear_traced_declined back he hfront hdeclined),
      h.decode_of_stops hes]
  · rw [h.decode_of_goes hes, h.decode_of_goes (Visitor.hear_traced [] hes)]

/-- How the telling of a script ends for a visitor, with what it heard until then. -/
inductive Outcome (v : Visitor σ) (es : List Event) (answer : Except Fault Unit) (s : σ) :
    List Event → Except Fault Flow × σ → Prop
  | goes {t : σ} (h : v.hear es s = (true, t)) :
      Outcome v es answer s es (answer.map fun _ => .finished, t)
  | declined {front back : List Event} {e : Event} {u t : σ} (hes : es = front ++ e :: back)
      (he : e ≠ .finish) (hfront : v.hear front s = (true, u)) (h : v.visit e u = (false, t)) :
      Outcome v es answer s (front ++ [e]) (.ok .declined, t)

theorem Tells.outcome (h : Tells (fun _ v => tellClass o v) data es answer rest) (v : Visitor σ)
    (s : σ) : Outcome v es answer s (heard o v data s) (decode o v data s) := by
  rcases hes : v.hear es s with ⟨_ | _, t⟩
  · obtain ⟨front, e, back, u, rfl, he, hfront, hdeclined⟩ := Visitor.hear_declined_iff.1 hes
    obtain ⟨hdecode, hheard⟩ := h.declined he hfront hdeclined
    rw [hdecode, hheard]
    exact .declined rfl he hfront hdeclined
  · rw [h.decode_of_goes hes, h.heard_of_goes hes]
    exact .goes hes

section Outcome

variable {word : List Event} {result : Except Fault Flow × σ}

theorem Outcome.begins (h : Outcome v es answer s word result) : word <+: es := by
  cases h with
  | goes _ => exact List.prefix_rfl
  | @declined front back e _ _ hes _ _ _ => exact ⟨back, by rw [hes]; simp⟩

/-- Of the script, a visitor hears what it goes on after. -/
theorem Outcome.begins_of_goes {front : List Event} (h : Outcome v es answer s word result)
    (hfront : front <+: es) (hgoes : v.hear front s = (true, t)) : front <+: word := by
  cases h with
  | goes _ => exact hfront
  | @declined front' back e u u' hes he hfront' hdeclined =>
    have hes' : front' ++ [e] <+: es := ⟨back, by rw [hes]; simp⟩
    obtain h | ⟨more, rfl⟩ := List.prefix_or_prefix_of_prefix hfront hes'
    · exact h
    -- If the declined event were among `front`, the visitor would not have gone on after that.
    · have hstops : v.hear (front' ++ [e] ++ more) s = (false, u') :=
        Visitor.hear_declined_iff.2 ⟨front', e, more, u, by simp, he, hfront', hdeclined⟩
      rw [hstops] at hgoes
      cases hgoes

end Outcome

end Decode

end MarkerIndex.ClassFile
