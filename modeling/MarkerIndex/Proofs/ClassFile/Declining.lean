/-
Declining an event is exact. Let a visitor that never declines hear the events `E` of some bytes,
and let the telling end for it in some way. Any other visitor hears `E` up to the first event that
it declines, and the telling has then ended because it declined, whatever is wrong with the bytes
behind that event; a visitor that declines none hears all of `E`, and the telling ends for it in the
same way.
-/
import MarkerIndex.Proofs.ClassFile.Protocol

namespace MarkerIndex.ClassFile

variable {σ τ : Type}

/-- The visitor declines nothing, in any state. -/
def Visitor.Tireless (v : Visitor σ) : Prop := ∀ e s, (v.visit e s).1 = true

theorem Visitor.Tireless.hear {v : Visitor σ} (h : v.Tireless) (es : List Event) (s : σ) :
    ∃ t, v.hear es s = (true, t) := by
  induction es generalizing s with
  | nil => exact ⟨s, rfl⟩
  | cons e es ih =>
    have hgoes : v.obliging.visit e s = (true, (v.visit e s).2) := by simp [obliging, h e s]
    rw [hear_cons es hgoes]
    exact ih _

/-- What a visitor hears and how the telling ends for it, in terms of a visitor `u` that never
declines: up to its first decline it hears what `u` hears, and without one it ends as `u` does. -/
theorem decode_declines_exactly (o : Options) (data : Bytes) {u : Visitor τ} (hu : u.Tireless)
    (r : τ) (v : Visitor σ) (s : σ) :
    decode o v.traced data ([], s) =
        ((decode o v data s).1, heard o v data s, (decode o v data s).2) ∧
      (∀ front e back t t', heard o u data r = front ++ e :: back → e ≠ .finish →
        v.hear front s = (true, t) → v.visit e t = (false, t') →
          heard o v data s = front ++ [e] ∧ decode o v data s = (.ok .declined, t')) ∧
      ∀ t, v.hear (heard o u data r) s = (true, t) →
        heard o v data s = heard o u data r ∧
          decode o v data s = ((decode o u data r).1, t) := by
  obtain ⟨es, answer, rest, htells, -⟩ := exists_script o data
  obtain ⟨r', hr⟩ := hu.hear es r
  have hscript : heard o u data r = es := htells.heard_of_goes hr
  rw [hscript]
  refine ⟨htells.decode_traced v s, ?_, ?_⟩
  · rintro front e back t t' rfl he hfront hdeclined
    obtain ⟨hdecode, hheard⟩ := htells.declined he hfront hdeclined
    exact ⟨hheard, hdecode⟩
  · intro t hgoes
    refine ⟨htells.heard_of_goes hgoes, ?_⟩
    rw [htells.decode_of_goes hgoes, htells.decode_of_goes hr]

/-- A class with a marker `M` that has a marker `T` as its property `x`, and then another `T`. The
bytes are in order if they announce two markers. -/
def markedClass (announced : UInt8) : Bytes :=
  [0xCA, 0xFE, 0xBA, 0xBE, 0, 0, 0, 0x34, 0, 7, 1, 0, 1, 0x41, 7, 0, 1, 1, 0, 25] ++
    visibleMarkers.toList.map (fun c => UInt8.ofNat c.toNat) ++
  [1, 0, 3, 0x4C, 0x4D, 0x3B, 1, 0, 1, 0x78, 1, 0, 3, 0x4C, 0x54, 0x3B, 0, 0x21, 0, 2, 0, 0, 0, 0,
    0, 0, 0, 0, 0, 1, 0, 3, 0, 0, 0, 17, 0, announced, 0, 4, 0, 1, 0, 5, 0x40, 0, 6, 0, 0,
    0, 6, 0, 0]

/-- The events in front of the first `T`. -/
def openingMarked : List Event :=
  [.header ⟨0, 52, 0x21, "A", none, []⟩, .markerStart "M" none true]

set_option maxRecDepth 4000 in
/-- A third marker is announced and missing, which a visitor that declines the first `T` does not
get to know. -/
theorem decode_declines_exactly_missing : Visitor.silent.Tireless ∧
    (decode {} Visitor.silent (markedClass 3) ()).1 = .error .outOfBounds ∧
    heard {} (Visitor.recording (some 3)) (markedClass 3) #[] =
      openingMarked ++ [.markerStart "T" (some "x") true] ∧
    decode {} (Visitor.recording (some 3)) (markedClass 3) #[] =
      (.ok .declined, (openingMarked ++ [Event.markerStart "T" (some "x") true]).toArray) := by
  have hsilent : Visitor.silent.Tireless := fun _ _ => rfl
  have hheard : heard {} Visitor.silent (markedClass 3) () = openingMarked ++
      .markerStart "T" (some "x") true :: [.markerEnd "T", .markerEnd "M",
        .markerStart "T" none true, .markerEnd "T"] := by decide +kernel
  refine ⟨hsilent, by decide +kernel, ?_⟩
  exact (decode_declines_exactly {} (markedClass 3) hsilent () (Visitor.recording (some 3)) #[]).2.1
    _ _ _ openingMarked.toArray _ hheard (by decide) rfl rfl

end MarkerIndex.ClassFile
