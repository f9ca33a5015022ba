/-
Two limits on nesting. At every point of what is told, no more markers and arrays are open than the
limit allows. Under a smaller and a larger limit a descriptor is told alike, up to the first marker
or array that the smaller limit leaves no room for. There the telling under the smaller limit fails,
with as many open as the limit allows, and under the larger one that marker or array is opened next,
from the bytes that were left, unless it is a marker whose type cannot be read from them.
-/
import MarkerIndex.Proofs.ClassFile.Declining
import MarkerIndex.Proofs.ClassFile.Nesting

namespace MarkerIndex.ClassFile

variable {α β τ : Type} {limit : Nat} {opened mid closed : List Bracket} {es es' : List Event}

/-! ## Brackets up to a limit -/

/-- Events one after the other, with at most `limit` brackets open behind each. -/
inductive StepsIn (limit : Nat) : List Bracket → List Event → List Bracket → Prop
  | nil {opened : List Bracket} : StepsIn limit opened [] opened
  | cons {opened mid closed : List Bracket} {e : Event} {es : List Event} (h : Step opened e mid)
      (hmid : mid.length ≤ limit) (h' : StepsIn limit mid es closed) :
      StepsIn limit opened (e :: es) closed

theorem StepsIn.append (h : StepsIn limit opened es mid) (h' : StepsIn limit mid es' closed) :
    StepsIn limit opened (es ++ es') closed := by
  induction h with
  | nil => exact h'
  | cons hstep hmid _ ih => exact .cons hstep hmid (ih h')

theorem StepsIn.steps (h : StepsIn limit opened es closed) : Steps opened es closed := by
  induction h with
  | nil => exact .nil
  | cons hstep _ _ ih => exact .cons hstep ih

/-- The limit holds at every point. -/
theorem StepsIn.front (h : StepsIn limit opened es closed) (hopened : opened.length ≤ limit)
    {front : List Event} (hfront : front <+: es) :
    ∃ mid, Steps opened front mid ∧ mid.length ≤ limit := by
  induction h generalizing front with
  | nil =>
    rw [List.prefix_nil.1 hfront]
    exact ⟨_, .nil, hopened⟩
  | cons hstep hmid _ ih =>
    obtain rfl | ⟨front, rfl, hbegins⟩ := List.prefix_cons_iff.1 hfront
    · exact ⟨_, .nil, hopened⟩
    · obtain ⟨mid, hsteps, hlength⟩ := ih hmid hbegins
      exact ⟨mid, .cons hstep hsteps, hlength⟩

/-! ## Tellings in lockstep -/

/-- What is told from the place on where one bracket more than `opened` is to be opened and `left`
is left of the bytes: the start of an array, or of a marker of the type that is read next, and so
on; or nothing, if that type cannot be read. -/
inductive OneMore (t : ConstantTable) (left : Bytes) (opened : List Bracket) :
    List Event → Except Fault α → Prop
  | marker {type : String} {property : Option String} {visible : Bool} {rest : Bytes}
      {es : List Event} {answer : Except Fault α} (htype : readTypeName t left = (.ok type, rest))
      (h : Step opened (.markerStart type property visible) (.marker type property :: opened)) :
      OneMore t left opened (.markerStart type property visible :: es) answer
  | array {name : String} {es : List Event} {answer : Except Fault α}
      (h : Step opened (.arrayStart name) (.array name :: opened)) :
      OneMore t left opened (.arrayStart name :: es) answer
  | untyped {rest : Bytes} {f : Fault} (h : readTypeName t left = (.error f, rest)) :
      OneMore t left opened [] (.error f)

section OneMore

variable {t : ConstantTable} {left : Bytes} {answer : Except Fault α}

/-- Only how the telling fails matters. -/
theorem OneMore.imp {answer' : Except Fault β} (h : OneMore t left opened es answer)
    (hfails : ∀ f, answer = .error f → answer' = .error f) :
    OneMore t left opened es answer' := by
  cases h with
  | marker htype hstep => exact .marker htype hstep
  | array hstep => exact .array hstep
  | untyped htype =>
    rw [hfails _ rfl]
    exact .untyped htype

/-- What is told and answered behind the bracket does not matter. -/
theorem OneMore.append {a : α} (h : OneMore t left opened es (.ok a)) (es' : List Event)
    (answer : Except Fault β) : OneMore t left opened (es ++ es') answer := by
  cases h with
  | marker htype hstep => exact .marker htype hstep
  | array hstep => exact .array hstep

end OneMore

/-- On the bytes both tellings have the same script, or the first one ends at a bracket that the
limit leaves no room for, and the second one goes on there. -/
inductive Abreast (t : ConstantTable) (limit : Nat) (opened closed : List Bracket)
    (w w' : Telling α) (bytes : Bytes) : Prop
  | alike {es : List Event} {answer : Except Fault α} {rest : Bytes} {mid : List Bracket}
      (h : Tells w bytes es answer rest) (h' : Tells w' bytes es answer rest)
      (hsteps : StepsIn limit opened es mid) (hclosed : ∀ a, answer = .ok a → mid = closed)
  | stops {front back : List Event} {answer : Except Fault α} {left rest : Bytes}
      {mid : List Bracket} (h : Tells w bytes front (.error (.nestingLimit limit)) left)
      (h' : Tells w' bytes (front ++ back) answer rest) (hsteps : StepsIn limit opened front mid)
      (hmid : mid.length = limit) (hback : OneMore t left mid back answer)

/-- Two tellings between the same brackets are abreast on all bytes. -/
def Lockstep (t : ConstantTable) (limit : Nat) (opened closed : List Bracket)
    (w w' : Telling α) : Prop :=
  ∀ bytes, Abreast t limit opened closed w w' bytes

section Lockstep

variable {t : ConstantTable} {w w' : Telling α} {f g : α → Telling β} {bytes : Bytes}

theorem Abreast.exists_first (h : Abreast t limit opened closed w w' bytes) :
    ∃ es answer rest mid, Tells w bytes es answer rest ∧ StepsIn limit opened es mid := by
  cases h with
  | alike h _ hsteps => exact ⟨_, _, _, _, h, hsteps⟩
  | stops h _ hsteps => exact ⟨_, _, _, _, h, hsteps⟩

theorem Abreast.exists_second (h : Abreast t limit opened closed w w' bytes) :
    ∃ es answer rest, Tells w' bytes es answer rest := by
  cases h with
  | alike _ h' => exact ⟨_, _, _, h'⟩
  | stops _ h' => exact ⟨_, _, _, h'⟩

theorem lockstep_quiet (h : ∀ bytes, ∃ answer rest, Tells w bytes [] answer rest) :
    Lockstep t limit opened opened w w := by
  intro bytes
  obtain ⟨answer, rest, htells⟩ := h bytes
  exact .alike htells htells .nil fun _ _ => rfl

theorem lockstep_tell {e : Event} (he : e ≠ .finish) (h : Step opened e closed)
    (hclosed : closed.length ≤ limit) :
    Lockstep t limit opened closed (fun _ v => Walk.tell v e) (fun _ v => Walk.tell v e) :=
  fun bytes => .alike (tells_tell he bytes) (tells_tell he bytes) (.cons h hclosed .nil)
    fun _ _ => rfl

/-- Tellings that go on abreast behind what both tell alike. -/
theorem Abreast.behind {a : α} {rest : Bytes} (h : Tells w bytes es (.ok a) rest)
    (h' : Tells w' bytes es (.ok a) rest) (hsteps : StepsIn limit opened es mid)
    (hrest : Abreast t limit mid closed (f a) (g a) rest) :
    Abreast t limit opened closed (fun σ v => w σ v >>= fun a => f a σ v)
      (fun σ v => w' σ v >>= fun a => g a σ v) bytes := by
  cases hrest with
  | alike hf hg hsteps' hclosed =>
    exact .alike (h.bind hf) (h'.bind hg) (hsteps.append hsteps') hclosed
  | stops hf hg hsteps' hmid hback =>
    have hboth := h'.bind hg
    rw [← List.append_assoc] at hboth
    exact .stops (h.bind hf) hboth (hsteps.append hsteps') hmid hback

theorem Lockstep.bind (hw : Lockstep t limit opened mid w w')
    (hf : ∀ a, Lockstep t limit mid closed (f a) (g a)) :
    Lockstep t limit opened closed (fun σ v => w σ v >>= fun a => f a σ v)
      (fun σ v => w' σ v >>= fun a => g a σ v) := by
  intro bytes
  cases hw bytes with
  | @alike _ answer rest _ h h' hsteps hclosed =>
    rcases answer with flaw | a
    · exact .alike h.bind_error h'.bind_error hsteps (by simp)
    -- Both go on from the same bytes, with the same brackets open.
    obtain rfl := hclosed a rfl
    exact (hf a rest).behind h h' hsteps
  | @stops _ back answer _ rest' _ h h' hsteps hmid hback =>
    rcases answer with flaw | a
    · exact .stops h.bind_error h'.bind_error hsteps hmid (hback.imp (by simp))
    -- Only the second one goes on, behind the bracket that it opened.
    · obtain ⟨es, answer, rest, hrest⟩ := (hf a rest').exists_second
      have hboth := h'.bind hrest
      rw [List.append_assoc] at hboth
      exact .stops h.bind_error hboth hsteps hmid (hback.append es answer)

theorem abreast_read {r : Reader α} {a : α} {rest : Bytes} (hr : r bytes = (.ok a, rest))
    (h : Abreast t limit opened closed (f a) (g a) rest) :
    Abreast t limit opened closed (fun σ v => Walk.read r >>= fun a => f a σ v)
      (fun σ v => Walk.read r >>= fun a => g a σ v) bytes := by
  have hread := tells_read r bytes
  rw [hr] at hread
  exact h.behind hread hread .nil

theorem lockstep_read {r : Reader α} (hf : ∀ a, Lockstep t limit opened closed (f a) (g a)) :
    Lockstep t limit opened closed (fun σ v => Walk.read r >>= fun a => f a σ v)
      (fun σ v => Walk.read r >>= fun a => g a σ v) :=
  (lockstep_quiet fun bytes => ⟨_, _, tells_read r bytes⟩).bind hf

theorem Lockstep.times {w w' : Telling Unit} (n : Nat) (hw : Lockstep t limit opened opened w w') :
    Lockstep t limit opened opened (fun σ v => Walk.times n (w σ v))
      (fun σ v => Walk.times n (w' σ v)) := by
  induction n with
  | zero => exact lockstep_quiet fun bytes => ⟨_, _, tells_done () bytes⟩
  | succ n ih =>
    exact hw.bind (f := fun _ σ v => Walk.times n (w σ v)) (g := fun _ σ v => Walk.times n (w' σ v))
      fun _ => ih

theorem Lockstep.within (body : Bytes) (hw : Lockstep t limit opened closed w w') :
    Lockstep t limit opened closed (fun σ v => Walk.within body (w σ v))
      (fun σ v => Walk.within body (w' σ v)) := by
  intro bytes
  cases hw body with
  | alike h h' hsteps hclosed => exact .alike (h.within bytes) (h'.within bytes) hsteps hclosed
  | stops h h' hsteps hmid hback =>
    exact .stops (h.within bytes) (h'.within bytes) hsteps hmid hback

end Lockstep

/-! ## Markers -/

section Elements

variable (t : ConstantTable) (visible : Bool) {E F : Option String → Telling Unit}

/-- A marker that is told with room for it in both. -/
theorem lockstep_marker {property : Option String} (hroom : opened.length < limit)
    (hadmits : Admits opened property)
    (h : ∀ b p, Admits (b :: opened) p → Lockstep t limit (b :: opened) (b :: opened) (E p) (F p)) :
    Lockstep t limit opened opened
      (fun σ v => tellMarker v t visible (fun p => E p σ v) property)
      (fun σ v => tellMarker v t visible (fun p => F p σ v) property) := by
  refine lockstep_read fun type => ?_
  refine (lockstep_tell (by simp) (.markerStart hadmits) hroom).bind fun _ => ?_
  refine lockstep_read fun count => ?_
  refine (Lockstep.times count.toNat ?_).bind fun _ =>
    lockstep_tell (by simp) (.markerEnd hadmits) hroom.le
  exact lockstep_read fun name => h (.marker type property) (some name) (by simp [Admits])

theorem lockstep_array {name : String} (hroom : opened.length < limit)
    (hadmits : Admits opened (some name))
    (h : ∀ b p, Admits (b :: opened) p → Lockstep t limit (b :: opened) (b :: opened) (E p) (F p)) :
    Lockstep t limit opened opened (fun σ v => tellArray v (fun p => E p σ v) name)
      (fun σ v => tellArray v (fun p => F p σ v) name) := by
  refine (lockstep_tell (by simp) (.arrayStart hadmits) hroom).bind fun _ => ?_
  refine lockstep_read fun count => ?_
  exact ((h (.array name) none rfl).times count.toNat).bind fun _ =>
    lockstep_tell (by simp) (.arrayEnd hadmits) hroom.le

/-- A marker for which the first one has no room. Its type is read by the second one only. -/
theorem lockstep_marker_stops {n : Nat} {property : Option String} (hfull : opened.length = limit)
    (hadmits : Admits opened property) (h : ∀ p, Speaks (F p) (Sized visible n (.content p))) :
    Lockstep t limit opened opened (fun _ _ => Walk.fail (.nestingLimit limit))
      (fun σ v => tellMarker v t visible (fun p => F p σ v) property) := by
  intro bytes
  have hfails := tells_fail (α := Unit) (.nestingLimit limit) bytes
  have hread := tells_read (readTypeName t) bytes
  rcases htype : readTypeName t bytes with ⟨f | type, mid⟩
  · rw [htype] at hread
    exact .stops hfails hread.bind_error .nil hfull (.untyped htype)
  · rw [htype] at hread
    obtain ⟨es, answer, rest, htells, -⟩ := speaks_properties t visible h type mid
    exact .stops hfails (hread.bind ((tells_tell (by simp) mid).bind htells)) .nil hfull
      (.marker htype (.markerStart hadmits))

theorem lockstep_array_stops {n : Nat} {name : String} (hfull : opened.length = limit)
    (hadmits : Admits opened (some name))
    (h : ∀ p, Speaks (F p) (Sized visible n (.content p))) :
    Lockstep t limit opened opened (fun _ _ => Walk.fail (.nestingLimit limit))
      (fun σ v => tellArray v (fun p => F p σ v) name) := by
  intro bytes
  obtain ⟨es, answer, rest, htells, -⟩ := speaks_elements visible h name bytes
  exact .stops (tells_fail _ bytes) ((tells_tell (by simp) bytes).bind htells) .nil hfull
    (.array (.arrayStart hadmits))

/-- What tells the inside of an element in both: there is room for it, or in the second one only. -/
inductive Room (t : ConstantTable) (limit : Nat) (opened : List Bracket) (visible : Bool) :
    Option (Option String → Telling Unit) → Option (Option String → Telling Unit) → Prop
  | both {E F : Option String → Telling Unit} (hroom : opened.length < limit)
      (h : ∀ b p, Admits (b :: opened) p →
        Lockstep t limit (b :: opened) (b :: opened) (E p) (F p)) :
      Room t limit opened visible (some E) (some F)
  | second {n : Nat} {F : Option String → Telling Unit} (hfull : opened.length = limit)
      (h : ∀ p, Speaks (F p) (Sized visible n (.content p))) :
      Room t limit opened visible none (some F)

theorem lockstep_element (inner inner' : Option (Option String → Telling Unit)) {limit' : Nat}
    {property : Option String} (hroom : Room t limit opened visible inner inner')
    (hopened : opened ≠ []) (hlength : opened.length ≤ limit) (hadmits : Admits opened property) :
    Lockstep t limit opened opened
      (fun σ v => tellElement v t visible limit (inner.map fun E p => E p σ v) property)
      (fun σ v => tellElement v t visible limit' (inner'.map fun E p => E p σ v) property) := by
  refine lockstep_read fun tag => ?_
  cases tag with
  | scalar kind =>
    exact lockstep_read fun s => lockstep_tell (by simp) (.value hopened hadmits) hlength
  | marker =>
    cases hroom with
    | both hroom h => exact lockstep_marker t visible hroom hadmits h
    | second hfull h => exact lockstep_marker_stops t visible hfull hadmits h
  | array =>
    cases property with
    | none => exact lockstep_quiet fun bytes => ⟨_, _, tells_fail _ bytes⟩
    | some name =>
      cases hroom with
      | both hroom h => exact lockstep_array t hroom hadmits h
      | second hfull h => exact lockstep_array_stops t visible hfull hadmits h

/-- The room left and the brackets that are open make up the limit. -/
theorem lockstep_elementIn {room room' limit' : Nat} {property : Option String}
    (hroom : opened.length + room = limit) (hmore : room < room') (hopened : opened ≠ [])
    (hadmits : Admits opened property) :
    Lockstep t limit opened opened (fun _ v => elementIn v t visible limit room property)
      (fun _ v => elementIn v t visible limit' room' property) := by
  -- On the smaller room; the larger one is a successor in both cases.
  induction room generalizing opened room' property with
  | zero =>
    obtain ⟨room', rfl⟩ := Nat.exists_eq_add_of_lt hmore
    exact lockstep_element t visible none
      (some fun p _ v => elementIn v t visible limit' (0 + room') p)
      (.second hroom (speaks_elementIn t visible limit' (0 + room'))) hopened hroom.le hadmits
  | succ room ih =>
    obtain ⟨room', rfl⟩ := Nat.exists_eq_add_of_lt hmore
    refine lockstep_element t visible (some fun p _ v => elementIn v t visible limit room p)
      (some fun p _ v => elementIn v t visible limit' (room + 1 + room') p)
      (.both (by omega) fun b p h => ?_) hopened (by omega) hadmits
    exact ih (by rw [List.length_cons]; omega) (by omega) (by simp) h

theorem lockstep_markerIn {room room' limit' : Nat} (hroom : room = limit) (hmore : room < room') :
    Lockstep t limit [] [] (fun _ v => markerIn v t visible limit room none)
      (fun _ v => markerIn v t visible limit' room' none) := by
  obtain ⟨room', rfl⟩ := Nat.exists_eq_succ_of_ne_zero (Nat.ne_zero_of_lt hmore)
  cases room with
  | zero =>
    exact lockstep_marker_stops (F := fun p _ v => elementIn v t visible limit' room' p) t visible
      hroom rfl (speaks_elementIn t visible limit' room')
  | succ room =>
    refine lockstep_marker (E := fun p _ v => elementIn v t visible limit room p)
      (F := fun p _ v => elementIn v t visible limit' room' p) t visible ?_ rfl fun b p h => ?_
    · exact hroom ▸ Nat.succ_pos room
    · exact lockstep_elementIn t visible (by rw [List.length_singleton]; omega)
        (Nat.lt_of_succ_lt_succ hmore) (by simp) h

theorem lockstep_markers {limit' : Nat} (hmore : limit < limit') (name : String) :
    Lockstep t limit [] [] (fun _ v => tellMarkers v t visible limit name)
      (fun _ v => tellMarkers v t visible limit' name) := by
  refine lockstep_read fun count => ?_
  refine ((lockstep_markerIn t visible rfl hmore).times count.toNat).bind fun _ => ?_
  exact lockstep_quiet fun bytes => ⟨_, _, tells_atEnd _ bytes⟩

end Elements

/-! ## Descriptors -/

section Descriptors

variable (o : Options) {larger : Nat}

theorem lockstep_attribute (hlarger : o.maxNesting < larger) (t : ConstantTable) :
    Lockstep t o.maxNesting [] [] (fun _ v => tellAttribute o v t)
      (fun _ v => tellAttribute { o with maxNesting := larger } v t) := by
  refine lockstep_read fun p => ?_
  obtain ⟨name, body⟩ := p
  have hvisibility : markerVisibility? { o with maxNesting := larger } name =
      markerVisibility? o name := rfl
  dsimp only
  rw [hvisibility]
  cases markerVisibility? o name with
  | none => exact lockstep_quiet fun bytes => ⟨_, _, tells_done () bytes⟩
  | some visible => exact (lockstep_markers t visible hlarger name).within body

/-- Where the header can be read, its table is the one that the markers are read with. -/
theorem abreast_class (hlarger : o.maxNesting < larger) {data after : Bytes} {header : Header}
    {t : ConstantTable} (hheader : readHeader data = (.ok (header, t), after)) :
    Abreast t o.maxNesting [] [] (fun _ v => tellClass o v)
      (fun _ v => tellClass { o with maxNesting := larger } v) data := by
  refine abreast_read hheader ?_
  refine (lockstep_tell (by simp) (.header header) (Nat.zero_le _)).bind (fun _ => ?_) after
  refine lockstep_read fun count => ?_
  refine ((lockstep_attribute o hlarger t).times count.toNat).bind fun _ => ?_
  intro bytes
  exact .alike (tells_tellLast bytes) (tells_tellLast bytes) (.cons .finish (Nat.zero_le _) .nil)
    fun _ _ => rfl

/-- A header that cannot be read is the end of it. -/
theorem tells_unheaded {data after : Bytes} {f : Fault}
    (hheader : readHeader data = (.error f, after)) :
    Tells (fun _ v => tellClass o v) data [] (.error f) after := by
  have hread := tells_read readHeader data
  rw [hheader] at hread
  exact hread.bind_error

/-- The script of a descriptor keeps to the limit. -/
theorem exists_script_in (data : Bytes) : ∃ es answer rest closed,
    Tells (fun _ v => tellClass o v) data es answer rest ∧
      StepsIn o.maxNesting [] es closed := by
  rcases hheader : readHeader data with ⟨f | ⟨header, t⟩, after⟩
  · exact ⟨[], _, _, [], tells_unheaded o hheader, .nil⟩
  · exact (abreast_class o (Nat.lt_succ_self _) hheader).exists_first

/-- A script that is told alike under other options is heard alike, with the same outcome. -/
theorem alike_of_tells {o' : Options} {data rest rest' : Bytes} {answer : Except Fault Unit}
    (h : Tells (fun _ v => tellClass o v) data es answer rest)
    (h' : Tells (fun _ v => tellClass o' v) data es answer rest') {u : Visitor τ}
    (hu : u.Tireless) (s : τ) :
    heard o' u data s = heard o u data s ∧ decode o' u data s = decode o u data s := by
  obtain ⟨t, ht⟩ := hu.hear es s
  constructor
  · rw [h'.heard_of_goes ht, h.heard_of_goes ht]
  · rw [h'.decode_of_goes ht, h.decode_of_goes ht]

/-- A visitor that never declines is told of a descriptor with at most as many markers and arrays
open, at every point, as the limit on nesting allows. Under a larger limit it hears the same and the
telling ends in the same way, unless the telling fails because of the limit: then as many are open
as it allows, and under the larger limit another one is opened next, from the bytes that were left
and with the table of the header. -/
theorem decode_larger_limit (hlarger : o.maxNesting ≤ larger) (data : Bytes) {u : Visitor τ}
    (hu : u.Tireless) (s : τ) :
    (∀ front, front <+: heard o u data s → ∃ opened,
        (∀ closed, Steps [] front closed ↔ closed = opened) ∧ opened.length ≤ o.maxNesting) ∧
      (heard { o with maxNesting := larger } u data s = heard o u data s ∧
          decode { o with maxNesting := larger } u data s = decode o u data s ∨
        (decode o u data s).1 = .error (.nestingLimit o.maxNesting) ∧
          ∃ header t after opened back, readHeader data = (.ok (header, t), after) ∧
            Steps [] (heard o u data s) opened ∧ opened.length = o.maxNesting ∧
            heard { o with maxNesting := larger } u data s = heard o u data s ++ back ∧
            OneMore t (tellClass o u data s).2.1 opened back
              (decode { o with maxNesting := larger } u data s).1) := by
  constructor
  · intro front hfront
    obtain ⟨es, answer, rest, mid, htells, hsteps⟩ := exists_script_in o data
    have hbegins : front <+: es := hfront.trans (htells.outcome u s).begins
    obtain ⟨opened, hopened, hlength⟩ := hsteps.front (Nat.zero_le _) hbegins
    refine ⟨opened, fun closed => ⟨fun h => h.unique hopened, ?_⟩, hlength⟩
    rintro rfl
    exact hopened
  · obtain rfl | hlarger := hlarger.eq_or_lt
    · exact .inl ⟨rfl, rfl⟩
    rcases hheader : readHeader data with ⟨f | ⟨header, t⟩, after⟩
    · exact .inl (alike_of_tells o (tells_unheaded o hheader) (tells_unheaded _ hheader) hu s)
    cases abreast_class o hlarger hheader with
    | alike h h' => exact .inl (alike_of_tells o h h' hu s)
    | @stops front back _ left _ opened h h' hsteps hlength hback =>
      obtain ⟨r, hr⟩ := hu.hear front s
      obtain ⟨r', hr'⟩ := hu.hear (front ++ back) s
      have hleft : (tellClass o u data s).2.1 = left := by rw [(h τ u s r).1 hr]
      rw [h.heard_of_goes hr, h.decode_of_goes hr, h'.heard_of_goes hr', h'.decode_of_goes hr',
        hleft]
      refine .inr ⟨rfl, header, t, after, opened, back, rfl, hsteps.steps, hlength, rfl,
        hback.imp ?_⟩
      rintro f rfl
      rfl

end Descriptors

set_option maxRecDepth 4000 in
/-- One marker may be open, and a marker inside it is told under a larger limit only. Its type is
the name at index 6, which is left where the telling fails. -/
theorem decode_larger_limit_nested : Visitor.silent.Tireless ∧
    heard { maxNesting := 1 } Visitor.silent (markedClass 2) () = openingMarked ∧
    (decode { maxNesting := 1 } Visitor.silent (markedClass 2) ()).1 = .error (.nestingLimit 1) ∧
    ∃ header t after opened back, readHeader (markedClass 2) = (.ok (header, t), after) ∧
      Steps [] openingMarked opened ∧ opened.length = 1 ∧
      heard {} Visitor.silent (markedClass 2) () = openingMarked ++ back ∧
      OneMore t [0, 6, 0, 0, 0, 6, 0, 0] opened back
        (decode {} Visitor.silent (markedClass 2) ()).1 := by
  have hsilent : Visitor.silent.Tireless := fun _ _ => rfl
  have hheard : heard { maxNesting := 1 } Visitor.silent (markedClass 2) () = openingMarked := by
    decide +kernel
  have hleft : (tellClass { maxNesting := 1 } Visitor.silent (markedClass 2) ()).2.1 =
      [0, 6, 0, 0, 0, 6, 0, 0] := by decide +kernel
  obtain ⟨-, ⟨hsame, -⟩ | ⟨hfails, header, t, after, opened, back, hheader, hsteps, hlength, hback,
      hmore⟩⟩ :=
    decode_larger_limit { maxNesting := 1 } (show 1 ≤ 64 by decide) (markedClass 2) hsilent ()
  -- Under the larger limit the whole class is told.
  · have hdiffer : heard { maxNesting := 64 } Visitor.silent (markedClass 2) () ≠
        heard { maxNesting := 1 } Visitor.silent (markedClass 2) () := by decide +kernel
    exact absurd hsame hdiffer
  · rw [hheard] at hsteps hback
    rw [hleft] at hmore
    exact ⟨hsilent, hheard, hfails, header, t, after, opened, back, hheader, hsteps, hlength, hback,
      hmore⟩

end MarkerIndex.ClassFile
