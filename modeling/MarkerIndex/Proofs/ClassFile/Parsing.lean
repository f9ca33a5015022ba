/-
Exactly which bytes are told. A telling parses a grammar of bytes with their events: it gets to its
end exactly on bytes with a front that the grammar gives for some events, for the visitors that go on
after these events, and leaves what is behind that front. The relation follows the ways in which
tellings are put together.
-/
import MarkerIndex.Proofs.Bytes.Parsing
import MarkerIndex.Proofs.ClassFile.Telling

namespace MarkerIndex.ClassFile

variable {α : Type}

/-- The telling gets to its end exactly on bytes with a front that `G` gives for some events, and
for the visitors that go on after these events. -/
def Telling.Parses (w : Telling Unit) (G : List Event → Bytes → Prop) : Prop :=
  ∀ (σ : Type) (v : Visitor σ) (bytes rest : Bytes) (s s' : σ),
    w σ v bytes s = (.ok (), rest, s') ↔
      ∃ es front, bytes = front ++ rest ∧ G es front ∧ v.hear es s = (true, s')

variable {w : Telling Unit} {G H : List Event → Bytes → Prop}

theorem Telling.Parses.congr (h : w.Parses G) (hG : ∀ es bs, G es bs ↔ H es bs) : w.Parses H := by
  intro σ v bytes rest s s'
  simp only [h σ v bytes rest s s', hG]

theorem parses_done : Telling.Parses (fun _ _ => Walk.done ()) fun es bs => es = [] ∧ bs = [] := by
  intro σ v bytes rest s s'
  constructor
  · rintro ⟨⟩
    exact ⟨[], [], rfl, ⟨rfl, rfl⟩, rfl⟩
  · rintro ⟨_, _, rfl, ⟨rfl, rfl⟩, h⟩
    cases h
    rfl

theorem parses_fail (flaw : Fault) (hG : ∀ es bs, ¬ G es bs) :
    Telling.Parses (fun _ _ => Walk.fail flaw) G := by
  intro σ v bytes rest s s'
  constructor
  · rintro ⟨⟩
  · rintro ⟨es, front, -, h, -⟩
    exact absurd h (hG es front)

theorem parses_tell {e : Event} (he : e ≠ .finish) :
    Telling.Parses (fun _ v => Walk.tell v e) fun es bs => es = [e] ∧ bs = [] := by
  intro σ v bytes rest s s'
  constructor
  · intro h
    obtain rfl := Walk.tell_ok h
    refine ⟨[e], [], rfl, ⟨rfl, rfl⟩, ?_⟩
    rw [Visitor.hear_singleton he]
    change Walk.tell v e rest s = _ at h
    unfold Walk.tell at h
    split at h
    next heq => cases h; exact heq
    next => cases h
  · rintro ⟨_, _, rfl, ⟨rfl, rfl⟩, h⟩
    exact (tells_tell he rest σ v s s').1 h

theorem Telling.Parses.bind {f : Unit → Telling Unit} (hw : w.Parses G) (hf : (f ()).Parses H) :
    Telling.Parses (fun σ v => w σ v >>= fun a => f a σ v) fun es bs =>
      ∃ es₁ es₂ front back, es = es₁ ++ es₂ ∧ bs = front ++ back ∧ G es₁ front ∧ H es₂ back := by
  intro σ v bytes rest s s'
  rw [Walk.bind_ok]
  constructor
  · rintro ⟨_, mid, u, hfirst, hsecond⟩
    obtain ⟨es₁, front, rfl, hG, hes₁⟩ := (hw σ v _ _ _ _).1 hfirst
    obtain ⟨es₂, back, rfl, hH, hes₂⟩ := (hf σ v _ _ _ _).1 hsecond
    refine ⟨es₁ ++ es₂, front ++ back, (List.append_assoc ..).symm,
      ⟨es₁, es₂, front, back, rfl, rfl, hG, hH⟩, ?_⟩
    rw [Visitor.hear_append_of_goes es₂ hes₁, hes₂]
  · rintro ⟨_, _, rfl, ⟨es₁, es₂, front, back, rfl, rfl, hG, hH⟩, hes⟩
    obtain ⟨u, hes₁, hes₂⟩ := Visitor.hear_append_goes.1 hes
    refine ⟨(), back ++ rest, u, (hw σ v _ _ _ _).2 ?_, (hf σ v _ _ _ _).2 ?_⟩
    · exact ⟨es₁, front, List.append_assoc .., hG, hes₁⟩
    · exact ⟨es₂, back, rfl, hH, hes₂⟩

/-- What is read stands in front, and no event belongs to it. -/
theorem parses_read {r : Reader α} {R : α → Bytes → Prop} {f : α → Telling Unit}
    {G : α → List Event → Bytes → Prop} (hr : r.Parses R) (hf : ∀ a, (f a).Parses (G a)) :
    Telling.Parses (fun σ v => Walk.read r >>= fun a => f a σ v) fun es bs =>
      ∃ a front back, bs = front ++ back ∧ R a front ∧ G a es back := by
  intro σ v bytes rest s s'
  rw [Walk.bind_ok]
  constructor
  · rintro ⟨a, mid, u, hread, hrest⟩
    obtain ⟨hanswer, rfl⟩ := Walk.read_ok hread
    obtain ⟨front, rfl, hR⟩ := (hr _ _ _).1 hanswer
    obtain ⟨es, back, rfl, hG, hes⟩ := (hf a σ v _ _ _ _).1 hrest
    exact ⟨es, front ++ back, (List.append_assoc ..).symm, ⟨a, front, back, rfl, hR, hG⟩, hes⟩
  · rintro ⟨es, _, rfl, ⟨a, front, back, rfl, hR, hG⟩, hes⟩
    refine ⟨a, back ++ rest, s, ?_, (hf a σ v _ _ _ _).2 ⟨es, back, rfl, hG, hes⟩⟩
    unfold Walk.read
    rw [(hr _ _ _).2 ⟨front, List.append_assoc .., hR⟩]

/-- As many turns as there are words of `G` in a word of `H`. -/
theorem Telling.Parses.times {H : Nat → List Event → Bytes → Prop} (hw : w.Parses G)
    (hzero : ∀ es bs, H 0 es bs ↔ es = [] ∧ bs = [])
    (hsucc : ∀ n es bs, H (n + 1) es bs ↔ ∃ es₁ es₂ front back,
      es = es₁ ++ es₂ ∧ bs = front ++ back ∧ G es₁ front ∧ H n es₂ back) (n : Nat) :
    Telling.Parses (fun σ v => Walk.times n (w σ v)) (H n) := by
  induction n with
  | zero => exact parses_done.congr fun es bs => (hzero es bs).symm
  | succ n ih =>
    refine Telling.Parses.congr ?_ fun es bs => (hsucc n es bs).symm
    exact hw.bind (f := fun _ σ v => Walk.times n (w σ v)) ih

end MarkerIndex.ClassFile
