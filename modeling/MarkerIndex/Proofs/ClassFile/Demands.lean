/-
What a walk demands: `Demands w bs P` says that on bytes that start with `bs` the walk answers only
behind `bs`, and only if `P` holds. Together with what a walk takes this says when it answers:
`AcceptsIff w bs P f` is a walk that takes `bs` if `P` holds and ends early otherwise. A condition
travels through sequencing as the conjunction of what the parts demand, and through a repetition
as the same demand for every turn.
-/
import MarkerIndex.Proofs.ClassFile.Walks

namespace MarkerIndex.ClassFile.Walk

open Reader (Reads)

variable {σ α β : Type} {bs cs : Bytes} {P Q : Prop}

/-- On bytes that start with `bs` the walk answers only behind them, and only if `P` holds. -/
def Demands (w : Walk σ α) (bs : Bytes) (P : Prop) : Prop :=
  ∀ rest s a left s', w (bs ++ rest) s = (.ok a, left, s') → left = rest ∧ P

theorem Demands.imp {w : Walk σ α} (hw : Demands w bs P) (h : P → Q) : Demands w bs Q := by
  intro rest s a left s' hrun
  obtain ⟨hleft, hP⟩ := hw rest s a left s' hrun
  exact ⟨hleft, h hP⟩

theorem demands_done (a : α) : Demands (done a : Walk σ α) [] True := by
  rintro rest s _ _ _ ⟨⟩
  exact ⟨rfl, trivial⟩

theorem demands_fail (f : Fault) : Demands (fail f : Walk σ α) bs P := by
  rintro rest s _ _ _ ⟨⟩

theorem demands_tell (v : Visitor σ) (e : Event) : Demands (tell v e) [] True :=
  fun _ _ _ _ _ h => ⟨tell_ok h, trivial⟩

theorem demands_tellLast (v : Visitor σ) (e : Event) : Demands (tellLast v e) [] True := by
  rintro rest s _ _ _ ⟨⟩
  exact ⟨rfl, trivial⟩

theorem Demands.bind {w : Walk σ Unit} {u : Unit → Walk σ β} (hw : Demands w bs P)
    (hu : Demands (u ()) cs Q) : Demands (w >>= u) (bs ++ cs) (P ∧ Q) := by
  intro rest s b left s' h
  obtain ⟨_, mid, t, hfirst, hsecond⟩ := bind_ok.1 h
  rw [List.append_assoc] at hfirst
  obtain ⟨rfl, hP⟩ := hw _ s _ mid t hfirst
  obtain ⟨hleft, hQ⟩ := hu rest t b left s' hsecond
  exact ⟨hleft, hP, hQ⟩

/-- What is read is taken before what depends on it. -/
theorem demands_read {r : Reader α} {w : α → Walk σ β} {a : α} (hr : Reads r bs a)
    (hw : Demands (w a) cs P) : Demands (read r >>= w) (bs ++ cs) P := by
  intro rest s b left s' h
  obtain ⟨a', mid, t, hread, hrest⟩ := bind_ok.1 h
  obtain ⟨hanswer, rfl⟩ := read_ok hread
  rw [List.append_assoc, hr] at hanswer
  cases hanswer
  exact hw rest t b left s' hrest

/-- A walk whose first reading fails on the bytes demands anything. -/
theorem demands_unread {r : Reader α} {w : α → Walk σ β}
    (hr : ∀ rest, ∃ f, (r (bs ++ rest)).1 = .error f) : Demands (read r >>= w) bs P := by
  intro rest s b left s' h
  obtain ⟨a, mid, t, hread, -⟩ := bind_ok.1 h
  obtain ⟨f, hf⟩ := hr rest
  rw [(read_ok hread).1] at hf
  cases hf

theorem demands_times {w : Walk σ Unit} {P : α → Prop} {xs : List α} {bodies : List Bytes}
    (h : List.Forall₂ (fun x bs => Demands w bs (P x)) xs bodies) :
    Demands (times xs.length w) bodies.flatten (∀ x ∈ xs, P x) := by
  induction h with
  | nil => exact (demands_done ()).imp fun _ => by simp
  | cons hw _ ih => exact (hw.bind ih).imp fun hall => List.forall_mem_cons.2 hall

/-- As many turns as a count says, and what comes behind them. -/
theorem demands_counted {r : Reader UInt16} {k : UInt16} {count : Bytes} {w last : Walk σ Unit}
    {P : α → Prop} {xs : List α} {bodies : List Bytes} (hr : Reads r count k)
    (hk : k.toNat = xs.length) (h : List.Forall₂ (fun x bs => Demands w bs (P x)) xs bodies)
    (hlast : Demands last [] True) :
    Demands (do
      let n ← read r
      times n.toNat w
      last) (count ++ bodies.flatten) (∀ x ∈ xs, P x) := by
  refine demands_read hr ?_
  rw [hk]
  have hall := (demands_times h).bind (u := fun _ => last) hlast
  rw [List.append_nil] at hall
  exact hall.imp And.left

theorem demands_within {w : Walk σ Unit} {body : Bytes} (hw : Demands w body P) :
    Demands (within body w) [] P := by
  intro rest s a left s' h
  obtain ⟨rfl, _, hbody⟩ := within_ok h
  rw [← List.append_nil body] at hbody
  exact ⟨rfl, (hw [] s _ _ _ hbody).2⟩

theorem demands_atEnd (f : Fault) : Demands (atEnd f : Walk σ Unit) [] True := by
  intro rest s a left s' h
  unfold atEnd at h
  split at h
  · cases h
  · cases h; exact ⟨rfl, trivial⟩

/-! ## Acceptance -/

/-- On bytes that start with `bs`, the walk takes them and changes the state as `f` does if `P`
holds, and does not answer otherwise. -/
structure AcceptsIff (w : Walk σ Unit) (bs : Bytes) (P : Prop) (f : σ → Bool × σ) : Prop where
  takes : P → Takes w bs f
  demands : Demands w bs P

end MarkerIndex.ClassFile.Walk
