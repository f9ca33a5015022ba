/-
Class descriptors that are cut off, and bytes behind them. A descriptor that is told to its end is
told from the bytes up to the end of its last attribute: whatever stands behind them the same is
told, and where fewer of them are there a visitor that declines nothing hears the beginning of it
before the bytes run out. Reading the header, passing over members and taking the body of an
attribute are exact as readers; what an attribute tells is read from a body that was taken whole, so
no cut is ever inside it.
-/
import MarkerIndex.Proofs.Bytes.Cuts
import MarkerIndex.Proofs.ClassFile.Declining

namespace MarkerIndex.ClassFile

open Reader (Exact Reads exact_bind exact_pure exact_done exact_fail exact_map exact_ofExcept
  exact_take exact_skip exact_u8 exact_u16 exact_u32)

variable {α β σ τ : Type}

/-! ## Readers of the header and of members -/

namespace ConstantTable

theorem exact_readBody (tag : UInt8) (index : Nat) : Exact (readBody tag index) := by
  unfold readBody
  split
  case h_18 => exact exact_fail _
  all_goals simp [readReference, readDynamic]

theorem exact_readSlots (slots : Nat) (filled : Array (Option Constant)) :
    Exact (readSlots slots filled) := by
  fun_induction readSlots slots filled with
  | case1 => exact exact_done _
  | case2 rest filled wide narrow =>
    refine exact_bind (exact_bind exact_u8 fun tag => exact_readBody tag _) fun c => ?_
    split
    · cases rest with
      | zero => exact exact_fail _
      | succ rest => exact wide c
    · exact narrow c

theorem exact_read : Exact read := by
  refine exact_bind exact_u16 fun count => ?_
  split
  · exact exact_fail _
  · exact exact_readSlots _ _

end ConstantTable

theorem exact_readIndexed (look : UInt16 → Except Fault α) : Exact (readIndexed look) :=
  exact_bind exact_u16 fun index => exact_ofExcept (look index)

theorem exact_readClassNames (t : ConstantTable) (n : Nat) (names : List String) :
    Exact (readClassNames t n names) := by
  induction n generalizing names with
  | zero => exact exact_done _
  | succ n ih => exact exact_bind (exact_readIndexed t.className) fun name => ih _

theorem exact_readHeader : Exact readHeader := by
  apply exact_bind exact_u32
  intro number
  split
  · exact exact_fail _
  refine exact_bind exact_u16 fun minor => exact_bind exact_u16 fun major => ?_
  refine exact_bind ConstantTable.exact_read fun t => exact_bind exact_u16 fun flags => ?_
  refine exact_bind (exact_readIndexed t.className) fun name => ?_
  have hinterfaces : ∀ super : Option String, Exact (do
      let count ← Reader.u16
      let interfaces ← readClassNames t count.toNat []
      return ((⟨minor, major, flags, name, super, interfaces⟩ : Header), t)) := fun super =>
    exact_bind exact_u16 fun count =>
      exact_bind (exact_readClassNames t _ _) fun interfaces => exact_pure _
  apply exact_bind exact_u16
  intro superIndex
  split
  · exact hinterfaces none
  · exact exact_bind (exact_map _ (exact_ofExcept _)) hinterfaces

theorem exact_readTimes {r : Reader Unit} (n : Nat) (h : Exact r) : Exact (readTimes n r) := by
  induction n with
  | zero => exact exact_done _
  | succ n ih => exact exact_bind h fun _ => ih

theorem exact_skipMembers : Exact skipMembers := by
  have hattribute : Exact skipAttribute := by simp [skipAttribute]
  have hmember : Exact skipMember :=
    exact_bind (exact_skip 6) fun _ =>
      exact_bind exact_u16 fun count => exact_readTimes _ hattribute
  exact exact_bind exact_u16 fun count => exact_readTimes _ hmember

/-! ## Tellings -/

/-- On any bytes the telling has a script, and an answer rests on the bytes that are taken: whatever
stands behind them the script is the same, and of fewer of them the telling runs out, behind the
beginning of the script. -/
def Telling.Exact (w : Telling α) : Prop := ∀ bytes, ∃ es answer rest,
  Tells w bytes es answer rest ∧ ∀ a, answer = .ok a → ∃ taken, bytes = taken ++ rest ∧
    (∀ more, Tells w (taken ++ more) es (.ok a) more) ∧
    ∀ k < taken.length, ∃ es' left, es' <+: es ∧
      Tells w (taken.take k) es' (.error .outOfBounds) left

section Exact

variable {w : Telling α} {f : α → Telling β}

/-- A telling that takes nothing. -/
theorem exact_of_untaken (h : ∀ bytes, ∃ es answer rest, Tells w bytes es answer rest ∧
    ∀ a, answer = .ok a → rest = bytes ∧ ∀ more, Tells w more es (.ok a) more) :
    Telling.Exact w := by
  intro bytes
  obtain ⟨es, answer, rest, htells, hanswer⟩ := h bytes
  refine ⟨es, answer, rest, htells, ?_⟩
  intro a ha
  obtain ⟨rfl, hmore⟩ := hanswer a ha
  refine ⟨[], rfl, hmore, ?_⟩
  intro k hk
  exact absurd hk (Nat.not_lt_zero k)

theorem exact_tellNothing (a : α) : Telling.Exact fun _ _ => Walk.done a := by
  apply exact_of_untaken
  intro bytes
  refine ⟨[], .ok a, bytes, tells_done a bytes, ?_⟩
  rintro _ ⟨⟩
  exact ⟨rfl, tells_done a⟩

theorem exact_tell {e : Event} (he : e ≠ .finish) :
    Telling.Exact fun _ v => Walk.tell v e := by
  apply exact_of_untaken
  intro bytes
  refine ⟨[e], .ok (), bytes, tells_tell he bytes, ?_⟩
  rintro _ ⟨⟩
  exact ⟨rfl, tells_tell he⟩

theorem exact_tellLast : Telling.Exact fun _ v => Walk.tellLast v .finish := by
  apply exact_of_untaken
  intro bytes
  refine ⟨[.finish], .ok (), bytes, tells_tellLast bytes, ?_⟩
  rintro _ ⟨⟩
  exact ⟨rfl, tells_tellLast⟩

/-- What is told from other bytes takes none of these. -/
theorem exact_within {L : List Event → Prop} (body : Bytes) (hw : Speaks w L) :
    Telling.Exact fun σ v => Walk.within body (w σ v) := by
  apply exact_of_untaken
  intro bytes
  obtain ⟨es, answer, _, htells, -⟩ := hw body
  refine ⟨es, answer, _, htells.within bytes, ?_⟩
  rintro a rfl
  exact ⟨rfl, fun more => htells.within more⟩

theorem exact_read {r : Reader α} (hr : r.Exact) : Telling.Exact fun _ _ => Walk.read r := by
  intro bytes
  refine ⟨[], (r bytes).1, (r bytes).2, tells_read r bytes, ?_⟩
  intro a ha
  obtain ⟨taken, hbytes, hreads, hcut⟩ := hr bytes a (r bytes).2 (Prod.ext ha rfl)
  refine ⟨taken, hbytes, ?_, ?_⟩
  · intro more
    have := tells_read r (taken ++ more)
    rwa [hreads more] at this
  · intro k hk
    have := tells_read r (taken.take k)
    rw [hcut k hk] at this
    exact ⟨[], _, List.prefix_rfl, this⟩

theorem Telling.Exact.bind (hw : Telling.Exact w) (hf : ∀ a, Telling.Exact (f a)) :
    Telling.Exact fun σ v => w σ v >>= fun a => f a σ v := by
  intro bytes
  obtain ⟨es, answer, mid, htells, hanswer⟩ := hw bytes
  cases answer with
  | error flaw =>
    refine ⟨es, .error flaw, mid, htells.bind_error, ?_⟩
    rintro _ ⟨⟩
  | ok a =>
    obtain ⟨front, rfl, hfront, hcut⟩ := hanswer a rfl
    obtain ⟨es', answer', rest, htells', hanswer'⟩ := hf a mid
    refine ⟨es ++ es', answer', rest, htells.bind htells', ?_⟩
    rintro b rfl
    obtain ⟨back, rfl, hback, hcut'⟩ := hanswer' b rfl
    refine ⟨front ++ back, (List.append_assoc ..).symm, ?_, ?_⟩
    · intro more
      rw [List.append_assoc]
      exact (hfront (back ++ more)).bind (hback more)
    · intro k hk
      -- The cut goes through what the first part takes, or through what the second one takes.
      rcases Nat.lt_or_ge k front.length with hlt | hge
      · rw [List.take_append_of_le_length (by omega)]
        obtain ⟨begun, left, hbegun, herror⟩ := hcut k hlt
        exact ⟨begun, left, hbegun.trans (List.prefix_append _ _), herror.bind_error⟩
      · rw [List.take_append, List.take_of_length_le hge]
        rw [List.length_append] at hk
        obtain ⟨begun, left, hbegun, herror⟩ := hcut' (k - front.length) (by omega)
        exact ⟨es ++ begun, left, (List.prefix_append_right_inj es).2 hbegun,
          (hfront _).bind herror⟩

theorem exact_times {w : Telling Unit} (n : Nat) (hw : Telling.Exact w) :
    Telling.Exact fun σ v => Walk.times n (w σ v) := by
  induction n with
  | zero => exact exact_tellNothing ()
  | succ n ih => exact hw.bind (f := fun _ σ v => Walk.times n (w σ v)) fun _ => ih

end Exact

/-! ## The descriptor -/

theorem exact_attribute (o : Options) (t : ConstantTable) :
    Telling.Exact fun _ v => tellAttribute o v t := by
  refine (exact_read ?_).bind fun p => ?_
  · exact exact_bind (exact_readIndexed t.utf8) fun name =>
      exact_bind exact_u32 fun length => exact_bind (exact_take _) fun body => exact_pure _
  · obtain ⟨name, body⟩ := p
    dsimp only
    cases markerVisibility? o name with
    | none => exact exact_tellNothing ()
    | some visible => exact exact_within body (speaks_markers t visible o.maxNesting name)

theorem exact_class (o : Options) : Telling.Exact fun _ v => tellClass o v := by
  refine (exact_read exact_readHeader).bind fun p => ?_
  obtain ⟨header, t⟩ := p
  refine (exact_tell (by simp)).bind fun _ => (exact_read ?_).bind fun count => ?_
  · exact exact_bind exact_skipMembers fun _ => exact_bind exact_skipMembers fun _ => exact_u16
  · exact (exact_times count.toNat (exact_attribute o t)).bind fun _ => exact_tellLast

/-! ## Where the last attribute ends -/

/-- Passes over a descriptor up to the end of its last attribute. -/
def skipClass : Reader Unit := do
  let _ ← readHeader
  skipMembers
  skipMembers
  let count ← Reader.u16
  readTimes count.toNat skipAttribute

/-- The position after the last attribute. -/
def attributesEnd (data : Bytes) : Nat := data.length - (skipClass data).2.length

section SkipClass

variable {bytes rest : Bytes} {s s' : σ}

/-- An index is as long as the two bytes that are passed over in its place. -/
theorem skip_of_readIndexed {look : UInt16 → Except Fault α} {a : α}
    (h : readIndexed look bytes = (.ok a, rest)) : Reader.skip 2 bytes = (.ok (), rest) := by
  obtain ⟨index, mid, hindex, hlook⟩ := Reader.bind_ok.1 h
  obtain ⟨-, rfl⟩ := Prod.mk.inj hlook
  obtain ⟨n, _, hnumber, hn⟩ := Reader.bind_ok.1 hindex
  obtain ⟨front, _, htake, hfront⟩ := Reader.bind_ok.1 hnumber
  cases hn
  cases hfront
  rw [Reader.skip_eq]
  exact Reader.bind_ok.2 ⟨front, _, htake, rfl⟩

/-- An attribute that is told is one that is passed over. -/
theorem skip_of_tellAttribute {o : Options} {t : ConstantTable}
    (h : tellAttribute o v t bytes s = (.ok (), rest, s')) :
    skipAttribute bytes = (.ok (), rest) := by
  obtain ⟨⟨name, body⟩, mid, u, hread, hbody⟩ := Walk.bind_ok.1 h
  have hmid : rest = mid := by
    cases hvisible : markerVisibility? o name with
    | none =>
      simp only [hvisible] at hbody
      cases hbody; rfl
    | some visible =>
      simp only [hvisible] at hbody
      exact (Walk.within_ok hbody).1
  obtain ⟨_, first, hname, htail⟩ := Reader.bind_ok.1 (Walk.read_ok hread).1
  obtain ⟨length, second, hlength, htail⟩ := Reader.bind_ok.1 htail
  obtain ⟨_, _, htake, hlast⟩ := Reader.bind_ok.1 htail
  cases hlast
  refine Reader.bind_ok.2 ⟨(), first, skip_of_readIndexed hname, ?_⟩
  refine Reader.bind_ok.2 ⟨length, second, hlength, ?_⟩
  rw [Reader.skip_eq, hmid]
  exact Reader.bind_ok.2 ⟨_, _, htake, rfl⟩

theorem readTimes_of_times {w : Walk σ Unit} {r : Reader Unit}
    (hw : ∀ {bytes rest s s'}, w bytes s = (.ok (), rest, s') → r bytes = (.ok (), rest)) (n : Nat)
    (h : Walk.times n w bytes s = (.ok (), rest, s')) : readTimes n r bytes = (.ok (), rest) := by
  induction n generalizing bytes s with
  | zero => cases h; rfl
  | succ n ih =>
    obtain ⟨_, mid, u, hfirst, hothers⟩ := Walk.bind_ok.1 h
    exact Reader.bind_ok.2 ⟨(), mid, hw hfirst, ih hothers⟩

/-- A descriptor that is told to its end is told up to the end of its last attribute. -/
theorem skipClass_of_tellClass {o : Options} (h : tellClass o v bytes s = (.ok (), rest, s')) :
    skipClass bytes = (.ok (), rest) := by
  obtain ⟨⟨header, t⟩, afterHeader, _, hheader, h⟩ := Walk.bind_ok.1 h
  obtain ⟨_, _, _, htell, h⟩ := Walk.bind_ok.1 h
  cases Walk.tell_ok htell
  obtain ⟨count, afterCount, _, hcount, h⟩ := Walk.bind_ok.1 h
  obtain ⟨_, _, _, htimes, hlast⟩ := Walk.bind_ok.1 h
  cases hlast
  obtain ⟨_, fields, hfields, hmembers⟩ := Reader.bind_ok.1 (Walk.read_ok hcount).1
  obtain ⟨_, methods, hmethods, hcount⟩ := Reader.bind_ok.1 hmembers
  have hattributes := readTimes_of_times (fun h => skip_of_tellAttribute h) _ htimes
  refine Reader.bind_ok.2 ⟨_, _, (Walk.read_ok hheader).1, ?_⟩
  refine Reader.bind_ok.2 ⟨(), fields, hfields, Reader.bind_ok.2 ⟨(), methods, hmethods, ?_⟩⟩
  exact Reader.bind_ok.2 ⟨count, afterCount, hcount, hattributes⟩

end SkipClass

/-! ## Cuts -/

section Cuts

variable {o : Options} {data : Bytes} {u : Visitor τ}

/-- A descriptor that is told to its end to a visitor that never declines: at each position before
the end of its last attribute a cut is noticed, and nothing behind that end matters. -/
theorem decode_cut (hu : u.Tireless) (r : τ) (h : (decode o u data r).1 = .ok .finished) :
    attributesEnd data ≤ data.length ∧
      (∀ k < attributesEnd data, (decode o u (data.take k) r).1 = .error .outOfBounds ∧
        heard o u (data.take k) r <+: heard o u data r) ∧
      ∀ more, decode o u (data.take (attributesEnd data) ++ more) r = decode o u data r ∧
        heard o u (data.take (attributesEnd data) ++ more) r = heard o u data r := by
  obtain ⟨es, answer, rest, htells, hanswer⟩ := exact_class o data
  obtain ⟨t, hes⟩ := hu.hear es r
  rw [htells.decode_of_goes hes] at h
  cases answer with
  | error f => cases h
  | ok _ =>
    obtain ⟨taken, rfl, hmore, hcut⟩ := hanswer () rfl
    have hend : attributesEnd (taken ++ rest) = taken.length := by
      have hskip := skipClass_of_tellClass ((htells τ u r t).1 hes)
      unfold attributesEnd
      rw [hskip, List.length_append]
      show taken.length + rest.length - rest.length = _
      omega
    rw [hend, List.take_left]
    refine ⟨by rw [List.length_append]; omega, ?_, ?_⟩
    · intro k hk
      obtain ⟨es', left, hbegins, herror⟩ := hcut k hk
      obtain ⟨t', hes'⟩ := hu.hear es' r
      rw [List.take_append_of_le_length (by omega), herror.decode_of_goes hes',
        herror.heard_of_goes hes', htells.heard_of_goes hes]
      exact ⟨rfl, hbegins⟩
    · intro more
      rw [(hmore more).decode_of_goes hes, (hmore more).heard_of_goes hes,
        htells.decode_of_goes hes, htells.heard_of_goes hes]
      exact ⟨rfl, rfl⟩

set_option maxRecDepth 4000 in
/-- With a byte too many behind it, the descriptor of two markers is told up to that byte. -/
theorem decode_cut_markedClass : Visitor.silent.Tireless ∧
    (decode {} Visitor.silent (markedClass 2 ++ [0]) ()).1 = .ok .finished ∧
    attributesEnd (markedClass 2 ++ [0]) = (markedClass 2).length ∧
    (decode {} Visitor.silent ((markedClass 2 ++ [0]).take 90) ()).1 = .error .outOfBounds := by
  have hsilent : Visitor.silent.Tireless := fun _ _ => rfl
  have hfinished : (decode {} Visitor.silent (markedClass 2 ++ [0]) ()).1 = .ok .finished := by
    decide +kernel
  have hend : attributesEnd (markedClass 2 ++ [0]) = (markedClass 2).length := by decide +kernel
  refine ⟨hsilent, hfinished, hend, ?_⟩
  exact ((decode_cut hsilent () hfinished).2.1 90 (by rw [hend]; decide)).1

end Cuts

end MarkerIndex.ClassFile
