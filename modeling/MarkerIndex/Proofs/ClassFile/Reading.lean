/-
How a descriptor is read. Every visitor hears the beginning of a protocol, and the whole of one
exactly if the telling finishes. Reading is telling the collector: it ends with the script, at the
fault that ends the script, at a fault that the collector finds in what it is told, or behind the
first marker of the target type.
-/
import MarkerIndex.Proofs.ClassFile.Nesting

namespace MarkerIndex.ClassFile

variable {σ : Type} {o : Options} {data rest : Bytes} {es : List Event}
  {answer : Except Fault Unit} {target : Option String}

/-- How a descriptor with the script `es` is read, with a target or without. -/
inductive Reading (target : Option String) (es : List Event) (answer : Except Fault Unit) :
    Except Fault ClassRecord → Prop
  | whole {c : Collector} {header : Header} (ha : answer = .ok ())
      (hgoes : (Collector.visitor target).hear es {} = (true, c))
      (hheader : c.header = some header) :
      Reading target es answer (.ok ⟨header, c.filed, false⟩)
  | broken {c : Collector} {f : Fault} (ha : answer = .error f)
      (hgoes : (Collector.visitor target).hear es {} = (true, c)) (hf : f.OfBytes) :
      Reading target es answer (.error f)
  | rejected {front back : List Event} {e : Event} {u c : Collector} {cause : Malformation}
      (hes : es = front ++ e :: back) (he : e ≠ .finish)
      (hfront : (Collector.visitor target).hear front {} = (true, u))
      (h : (Collector.visitor none).visit e u = (false, c)) (hfault : c.fault = some cause)
      (hcause : cause.isMistold = false) : Reading target es answer (.error (.malformed cause))
  | reached {front back : List Event} {type : String} {u c : Collector} {header : Header}
      (hes : es = front ++ .markerEnd type :: back) (htarget : target = some type)
      (hfront : (Collector.visitor target).hear front {} = (true, u))
      (h : (Collector.visitor none).visit (.markerEnd type) u = (true, c))
      (hheader : c.header = some header) : Reading target es answer (.ok ⟨header, c.filed, true⟩)

/-- A script starts with the header, which is not declined. -/
theorem ScriptOf.header_mem {front back : List Event} {e : Event}
    (h : ScriptOf (front ++ e :: back) answer) (he : ∀ header, e ≠ .header header) :
    ∃ header, .header header ∈ front := by
  have hstarts : ∃ header tail, front ++ e :: back = .header header :: tail := by
    cases h with
    | whole h =>
      obtain ⟨header, ms, -, hword⟩ := h
      exact ⟨header, _, hword⟩
    | broken _ hbegins _ =>
      obtain hnil | ⟨tail, hword, -⟩ := List.prefix_cons_iff.1 hbegins
      · exact absurd hnil (by simp)
      · exact ⟨_, tail, hword⟩
  obtain ⟨header, tail, hword⟩ := hstarts
  cases front with
  | nil => cases hword; exact absurd rfl (he header)
  | cons e front => cases hword; exact ⟨header, by simp⟩

theorem reading (htells : Tells (fun _ v => tellClass o v) data es answer rest)
    (hscript : ScriptOf es answer) (target : Option String) :
    Reading target es answer (ClassRecord.read data target o) := by
  obtain ⟨closed, hsteps⟩ := hscript.steps
  rcases hes : (Collector.visitor target).hear es {} with ⟨_ | _, c⟩
  · obtain ⟨front, e, back, u, rfl, he, hfront, hdeclined⟩ := Visitor.hear_declined_iff.1 hes
    have hheader : ∃ header, .header header ∈ front := hscript.header_mem (by
      rintro header rfl
      cases hdeclined)
    obtain ⟨mid, hsteps, hback⟩ := hsteps.split
    obtain _ | ⟨hstep, -⟩ := hback
    have hnone := Collector.hear_none hsteps rfl hfront
    obtain ⟨hu, hfault, hkept⟩ := Collector.hear_took hsteps rfl hnone
    unfold ClassRecord.read
    rw [htells.decode_of_stops hes]
    -- The collector has found a fault, or it has reached its target with no fault until then.
    obtain hvisit | ⟨type, htarget, rfl, hvisit⟩ := Collector.visit_declined hstep hu hdeclined
    · obtain ⟨cause, hcause, hplain⟩ := Collector.fault_of_declined hstep hu hvisit
      dsimp only
      rw [hcause]
      exact .rejected rfl he hfront hvisit hcause hplain
    · have htook := Collector.visit_took hstep hu
      rw [hvisit] at htook
      obtain ⟨-, hfault', hheader', -, -⟩ := htook
      obtain ⟨header, hheader⟩ := Option.ne_none_iff_exists'.1 (hheader' (.inl (hkept (.inr hheader))))
      dsimp only
      rw [hfault', hfault, hheader]
      exact .reached rfl htarget hfront hvisit hheader
  · obtain ⟨-, hfault, hkept⟩ :=
      Collector.hear_took hsteps rfl (Collector.hear_none hsteps rfl hes)
    unfold ClassRecord.read
    rw [htells.decode_of_goes hes]
    cases hscript with
    | broken _ _ hf => exact .broken rfl hes hf
    | whole h =>
      obtain ⟨header, ms, -, rfl⟩ := h
      have hheader : c.header ≠ none := hkept (.inr ⟨header, by simp⟩)
      obtain ⟨header', hheader⟩ := Option.ne_none_iff_exists'.1 hheader
      dsimp only [Except.map]
      rw [hfault, hheader]
      exact .whole rfl hes hheader

theorem Reading.not_mistold {cause : Malformation}
    (h : Reading target es answer (.error (.malformed cause))) : cause.isMistold = false := by
  cases h with
  | broken _ _ hf => exact hf
  | rejected _ _ _ _ _ hcause => exact hcause

/-- Every visitor hears the beginning of a protocol, up to the finish exactly if the telling
finishes, and so the collector is never told anything out of place. -/
theorem told_in_order (o : Options) (data : Bytes) :
    (∀ (σ : Type) (v : Visitor σ) (s : σ),
      (∃ word, Protocol word ∧ heard o v data s <+: word) ∧
      (.finish ∈ heard o v data s ↔ (decode o v data s).1 = .ok .finished) ∧
      ((decode o v data s).1 = .ok .finished → Protocol (heard o v data s))) ∧
    ∀ target : Option String, ClassRecord.read data target o ∉
      [.error (.malformed .unnamedValue), .error (.malformed .strayValue),
        .error (.malformed .strayArrayEnd), .error (.malformed .strayMarkerEnd),
        .error (.malformed .missingHeader)] := by
  obtain ⟨es, answer, rest, htells, hscript⟩ := exists_script o data
  constructor
  · intro σ v s
    obtain ⟨hfinished, hword⟩ | ⟨hnot, header, ms, hms, hbegins⟩ :=
      (htells.outcome v s).speaks hscript
    · obtain ⟨header, ms, hms, hheard⟩ := id hword
      refine ⟨⟨_, hword, List.prefix_rfl⟩, ?_, fun _ => hword⟩
      simp [hfinished, hheard]
    · have hword : Protocol (.header header :: (ms ++ [.finish])) := ⟨header, ms, hms, rfl⟩
      have hfinish : .finish ∉ heard o v data s := by
        intro h
        obtain h | h := List.mem_cons.1 (hbegins.subset h)
        · cases h
        · exact hms.ne_finish _ h rfl
      refine ⟨⟨_, hword, ?_⟩, ?_, fun h => absurd h hnot⟩
      · exact hbegins.trans ⟨[.finish], by simp⟩
      · exact ⟨fun h => absurd h hfinish, fun h => absurd h hnot⟩
  · intro target hmem
    -- The five causes are those of something told out of place.
    have hreading := reading htells hscript target
    simp only [List.mem_cons, List.not_mem_nil, or_false] at hmem
    obtain h | h | h | h | h := hmem
    all_goals
      rw [h] at hreading
      cases hreading.not_mistold

end MarkerIndex.ClassFile
