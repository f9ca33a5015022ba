/-
Where a cursor stands after any run. Every step needs a number of bytes that is known beforehand.
Where so many remain it answers with what they mean and stands behind them; where fewer remain it
runs out of bytes and stands where it stood. Both checks of bounds add words, which can be too
great for a word; but a word counts the bytes, so a place without a word lies behind their end, and
each check comes to a comparison of numbers.

From this one choice follow the laws of every run, and that a cursor does what the reader of the
bytes that remain does.
-/
import MarkerIndex.Bytes.Cursor
import MarkerIndex.Proofs.Bytes.Reads

namespace MarkerIndex

variable {α β : Type}

/-! ## Places as words -/

theorem checkedAdd_eq_some_iff {a b sum : USize} :
    checkedAdd a b = some sum ↔ sum.toNat = a.toNat + b.toNat := by
  have hadd : a.toNat + b.toNat < USize.size → (a + b).toNat = a.toNat + b.toNat := by
    intro hlt
    rw [USize.toNat_add]
    exact Nat.mod_eq_of_lt hlt
  unfold checkedAdd
  constructor
  · intro h
    split at h
    next hlt => cases h; exact hadd hlt
    next => cases h
  · intro h
    have hlt : a.toNat + b.toNat < USize.size := h ▸ sum.toNat_lt_size
    rw [if_pos hlt, Option.some.injEq, ← USize.toNat_inj, hadd hlt, h]

namespace Buffer

@[simp] theorem toNat_size (d : Buffer) : d.size.toNat = d.bytes.length :=
  USize.toNat_ofNat_of_lt' d.fits

/-- Up to the end every place has a word. -/
theorem exists_stop {d : Buffer} {place n : USize}
    (h : place.toNat + n.toNat ≤ d.bytes.length) :
    ∃ stop, checkedAdd place n = some stop ∧ stop.toNat = place.toNat + n.toNat ∧
      stop ≤ d.size := by
  have hlt : place.toNat + n.toNat < USize.size := Nat.lt_of_le_of_lt h d.fits
  have hstop : (USize.ofNat (place.toNat + n.toNat)).toNat = place.toNat + n.toNat :=
    USize.toNat_ofNat_of_lt' hlt
  refine ⟨.ofNat (place.toNat + n.toNat), checkedAdd_eq_some_iff.2 hstop, hstop, ?_⟩
  rw [USize.le_iff_toNat_le, hstop, toNat_size]
  exact h

/-- Behind the end a place has no word, or one that is greater than that of the end. -/
theorem size_lt_of_checkedAdd {d : Buffer} {place n stop : USize}
    (h : d.bytes.length < place.toNat + n.toNat) (hstop : checkedAdd place n = some stop) :
    d.size < stop := by
  rw [USize.lt_iff_toNat_lt, checkedAdd_eq_some_iff.1 hstop, toNat_size]
  exact h

end Buffer

/-! ## The bytes that remain -/

namespace Cursor

/-- The place is one of the bytes or their end. -/
def Within (c : Cursor) : Prop := c.position ≤ c.data.size

/-- The bytes that remain. -/
def rest (c : Cursor) : Bytes := c.data.bytes.drop c.position.toNat

theorem within_iff {c : Cursor} : c.Within ↔ c.position.toNat ≤ c.data.bytes.length := by
  rw [Within, USize.le_iff_toNat_le, Buffer.toNat_size]

theorem within_start (d : Buffer) : (start d).Within := within_iff.2 (Nat.zero_le _)

theorem length_rest (c : Cursor) :
    c.rest.length = c.data.bytes.length - c.position.toNat := List.length_drop

theorem le_length_rest_iff {c : Cursor} (hc : c.Within) {n : Nat} :
    n ≤ c.rest.length ↔ c.position.toNat + n ≤ c.data.bytes.length := by
  rw [within_iff] at hc
  rw [length_rest]
  omega

/-- Fewer than `n` bytes remain where `n` more lead behind the end. -/
theorem length_rest_lt_iff {c : Cursor} (hc : c.Within) {n : Nat} :
    c.rest.length < n ↔ c.data.bytes.length < c.position.toNat + n := by
  rw [← Nat.not_le, le_length_rest_iff hc, Nat.not_le]

/-- Both ways to ask for more bytes agree. -/
theorem hasMore_eq (c : Cursor) : c.hasMore = Reader.hasMore c.rest := by
  rw [Bool.eq_iff_iff, hasMore, decide_eq_true_iff, USize.lt_iff_toNat_lt, Buffer.toNat_size]
  simp [Reader.hasMore, rest]

/-- The cursor has moved over `n` bytes. -/
structure Passed (n : USize) (c next : Cursor) : Prop where
  data : next.data = c.data
  position : next.position.toNat = c.position.toNat + n.toNat

namespace Passed

variable {n : USize} {c next : Cursor}

theorem rest (h : Passed n c next) : next.rest = c.rest.drop n.toNat := by
  rw [Cursor.rest, Cursor.rest, h.data, h.position, List.drop_drop]

theorem slice (h : Passed n c next) :
    next.data.slice c.position next.position = c.rest.take n.toNat := by
  rw [Buffer.slice, h.position, h.data, Nat.add_sub_cancel_left, Cursor.rest]

theorem within (h : Passed n c next) (hc : c.Within) (hn : n.toNat ≤ c.rest.length) :
    next.Within := by
  rw [within_iff, h.data, h.position]
  exact (le_length_rest_iff hc).1 hn

end Passed

/-! ## Steps -/

namespace Step

/-- The step needs `n` bytes. Where fewer remain it runs out of bytes and moves nothing; where there
are so many it passes over them and answers with what they mean. -/
structure Spans (s : Step α) (n : USize) (meaning : Bytes → Except Fault α) : Prop where
  runsOut : ∀ {c : Cursor}, c.Within → c.rest.length < n.toNat → s.run c = (.error .outOfBounds, c)
  passes : ∀ {c : Cursor}, c.Within → n.toNat ≤ c.rest.length →
    ∃ next, Passed n c next ∧ s.run c = (meaning (c.rest.take n.toNat), next)

variable {s : Step α} {c next : Cursor} {n : USize} {meaning : Bytes → Except Fault α}

theorem run_get_bind (f : Cursor → Step β) (c : Cursor) :
    (get >>= f : Step β).run c = (f c).run c := rfl

theorem run_bind (s : Step α) (f : α → Step β) (c : Cursor) : (s >>= f).run c =
    match s.run c with
    | (.ok a, next) => (f a).run next
    | (.error flaw, next) => (.error flaw, next) := by
  change ExceptT.bindCont f (s.run c).1 (s.run c).2 = _
  rcases s.run c with ⟨_ | _, _⟩ <;> rfl

/-- What follows without moving interprets the answer. -/
theorem Spans.bind_still {f : α → Step β} {g : α → Except Fault β} (hs : Spans s n meaning)
    (hf : ∀ a c, (f a).run c = (g a, c)) : Spans (s >>= f) n fun bs => meaning bs >>= g where
  runsOut hc hn := by rw [run_bind, hs.runsOut hc hn]
  passes {c} hc hn := by
    obtain ⟨next, hnext, hrun⟩ := hs.passes hc hn
    refine ⟨next, hnext, ?_⟩
    rw [run_bind, hrun]
    cases meaning (c.rest.take n.toNat) with
    | error flaw => rfl
    | ok a => exact hf a next

end Step

theorem spans_advance (n : USize) : (advance n).Spans n fun _ => .ok () where
  runsOut {c} hc hn := by
    rw [length_rest_lt_iff hc] at hn
    unfold advance
    rw [Step.run_get_bind]
    -- The sum fails, or else the comparison with the end.
    cases hstop : checkedAdd c.position n with
    | none => rfl
    | some stop =>
      have hlt := Buffer.size_lt_of_checkedAdd hn hstop
      show Step.run (if stop ≤ c.data.size then _ else _) c = _
      rw [if_neg (USize.not_le.2 hlt)]
      rfl
  passes {c} hc hn := by
    rw [le_length_rest_iff hc] at hn
    obtain ⟨stop, hstop, hplace, hle⟩ := Buffer.exists_stop hn
    refine ⟨⟨c.data, stop⟩, ⟨rfl, hplace⟩, ?_⟩
    unfold advance
    rw [Step.run_get_bind, hstop]
    show Step.run (if stop ≤ c.data.size then _ else _) c = _
    rw [if_pos hle]
    rfl

theorem spans_number (kind : NumberKind) :
    (number kind).Spans kind.width fun bs => .ok (kind.ofValue (BigEndian.value bs)) where
  runsOut {c} hc hn := by
    rw [length_rest_lt_iff hc] at hn
    show ((numberAt kind c.data c.position).1, _) = _
    unfold numberAt
    cases hstop : checkedAdd c.position kind.width with
    | none => rfl
    | some stop =>
      dsimp only
      rw [if_pos (Buffer.size_lt_of_checkedAdd hn hstop)]
  passes {c} hc hn := by
    rw [le_length_rest_iff hc] at hn
    obtain ⟨stop, hstop, hplace, hle⟩ := Buffer.exists_stop hn
    have hpassed : Passed kind.width c ⟨c.data, stop⟩ := ⟨rfl, hplace⟩
    refine ⟨⟨c.data, stop⟩, hpassed, ?_⟩
    rw [← hpassed.slice]
    show ((numberAt kind c.data c.position).1, _) = _
    unfold numberAt
    rw [hstop]
    dsimp only
    rw [if_neg (USize.not_lt.2 hle)]

theorem spans_take (n : USize) : (take n).Spans n .ok where
  runsOut hc hn := by
    unfold take
    rw [Step.run_get_bind, Step.run_bind, (spans_advance n).runsOut hc hn]
  passes {c} hc hn := by
    obtain ⟨next, hnext, hrun⟩ := (spans_advance n).passes hc hn
    refine ⟨next, hnext, ?_⟩
    unfold take
    rw [Step.run_get_bind, Step.run_bind, hrun, ← hnext.slice]
    rfl

/-- The bytes of a text are passed over also where they spell none. -/
theorem spans_text (n : USize) : (text n).Spans n fun bs =>
    (Text.ModifiedUtf8.decode bs).mapError fun flaw => .malformed (.encoding flaw) := by
  refine (spans_take n).bind_still fun bs c => ?_
  cases Text.ModifiedUtf8.decode bs <;> rfl

end Cursor

/-! ## Readers of what remains -/

namespace NumberKind

/-- The reader of the numbers of a kind. -/
def reader : (kind : NumberKind) → Reader kind.Number
  | .u8 => Reader.u8
  | .i8 => Reader.i8
  | .u16 => Reader.u16
  | .i16 => Reader.i16
  | .u32 | .f32 => Reader.u32
  | .i32 => Reader.i32
  | .u64 | .f64 => Reader.u64
  | .i64 => Reader.i64

theorem spans_reader (kind : NumberKind) : kind.reader.Spans kind.width.toNat
    fun bs => .ok (kind.ofValue (BigEndian.value bs)) := by
  have word {ω : Type} (ofNat : Nat → ω) {width : USize} {k : Nat} (hk : width.toNat = k) :
      Reader.Spans (do return ofNat (← Reader.number k)) width.toNat
        fun bs => .ok (ofNat (BigEndian.value bs)) := by
    rw [hk]
    exact (Reader.spans_number k).bind_still fun _ _ => rfl
  have h1 : (1 : USize).toNat = 1 := by simp
  have h2 : (2 : USize).toNat = 2 := by simp
  have h4 : (4 : USize).toNat = 4 := by simp
  have h8 : (8 : USize).toNat = 8 := by simp
  cases kind with
  | u8 => exact word UInt8.ofNat h1
  | u16 => exact word UInt16.ofNat h2
  | u32 => exact word UInt32.ofNat h4
  | f32 => exact word UInt32.ofNat h4
  | u64 => exact word UInt64.ofNat h8
  | f64 => exact word UInt64.ofNat h8
  | i8 => exact (word UInt8.ofNat h1).bind_still (g := fun b => .ok b.toInt8) fun _ _ => rfl
  | i16 => exact (word UInt16.ofNat h2).bind_still (g := fun b => .ok b.toInt16) fun _ _ => rfl
  | i32 => exact (word UInt32.ofNat h4).bind_still (g := fun b => .ok b.toInt32) fun _ _ => rfl
  | i64 => exact (word UInt64.ofNat h8).bind_still (g := fun b => .ok b.toInt64) fun _ _ => rfl

end NumberKind

/-! ## Runs -/

namespace Cursor

/-- One step of a run, with what it asks for. -/
inductive Operation where
  | number (kind : NumberKind)
  | advance (n : USize)
  | take (n : USize)
  | text (n : USize)

namespace Operation

abbrev Answer : Operation → Type
  | .number kind => kind.Number
  | .advance _ => Unit
  | .take _ => Bytes
  | .text _ => String

/-- How many bytes it needs. -/
def size : Operation → USize
  | .number kind => kind.width
  | .advance n | .take n | .text n => n

def step : (op : Operation) → Step op.Answer
  | .number kind => Cursor.number kind
  | .advance n => Cursor.advance n
  | .take n => Cursor.take n
  | .text n => Cursor.text n

/-- The same on bytes from the front. -/
def reader : (op : Operation) → Reader op.Answer
  | .number kind => kind.reader
  | .advance n => Reader.skip n.toNat
  | .take n => Reader.take n.toNat
  | .text n => Reader.text n.toNat

/-- What the bytes that it needs mean to it. -/
def meaning : (op : Operation) → Bytes → Except Fault op.Answer
  | .number kind, bs => .ok (kind.ofValue (BigEndian.value bs))
  | .advance _, _ => .ok ()
  | .take _, bs => .ok bs
  | .text _, bs =>
    (Text.ModifiedUtf8.decode bs).mapError fun flaw => .malformed (.encoding flaw)

theorem spans_step (op : Operation) : op.step.Spans op.size op.meaning := by
  cases op with
  | number kind => exact spans_number kind
  | advance n => exact spans_advance n
  | take n => exact spans_take n
  | text n => exact spans_text n

theorem spans_reader (op : Operation) : op.reader.Spans op.size.toNat op.meaning := by
  cases op with
  | number kind => exact kind.spans_reader
  | advance n => exact Reader.spans_skip n.toNat
  | take n => exact Reader.spans_take n.toNat
  | text n => exact Reader.spans_text n.toNat

/-- Bytes mean something, or the operation is to read them as a text and they spell none. -/
theorem meaning_cases (op : Operation) (bs : Bytes) : (∃ a, op.meaning bs = .ok a) ∨
    ∃ n flaw, op = .text n ∧ op.meaning bs = .error (.malformed (.encoding flaw)) := by
  cases op with
  | number kind => exact .inl ⟨_, rfl⟩
  | advance n => exact .inl ⟨_, rfl⟩
  | take n => exact .inl ⟨_, rfl⟩
  | text n =>
    cases h : Text.ModifiedUtf8.decode bs with
    | ok s => exact .inl ⟨s, by rw [meaning, h]; rfl⟩
    | error flaw => exact .inr ⟨n, flaw, rfl, by rw [meaning, h]; rfl⟩

theorem meaning_ne_outOfBounds (op : Operation) (bs : Bytes) :
    op.meaning bs ≠ .error .outOfBounds := by
  obtain ⟨a, h⟩ | ⟨n, flaw, -, h⟩ := op.meaning_cases bs <;> rw [h] <;> nofun

end Operation

/-- The cursor behind a run. -/
def after (c : Cursor) (ops : List Operation) : Cursor :=
  ops.foldl (fun c op => (op.step.run c).2) c

/-- How an operation behaves at a cursor. -/
structure Disciplined (c : Cursor) (op : Operation) : Prop where
  /-- It runs out of bytes exactly where fewer remain than it needs. -/
  runsOut_iff : (op.step.run c).1 = .error .outOfBounds ↔ c.rest.length < op.size.toNat
  /-- So it does where no word is great enough for the place that it leads to. -/
  runsOut_of_overflow : USize.size ≤ c.position.toNat + op.size.toNat →
    (op.step.run c).1 = .error .outOfBounds
  /-- Where it runs out the cursor stays. -/
  stays : (op.step.run c).1 = .error .outOfBounds → (op.step.run c).2 = c
  /-- With every other outcome, a fault or not, the cursor passes over the bytes needed. -/
  passes : (op.step.run c).1 ≠ .error .outOfBounds → Passed op.size c (op.step.run c).2
  /-- The only other fault is that of a text that the bytes do not spell. -/
  answers : op.size.toNat ≤ c.rest.length → (∃ a, (op.step.run c).1 = .ok a) ∨
    ∃ n flaw, op = .text n ∧ (op.step.run c).1 = .error (.malformed (.encoding flaw))
  /-- The outcome rests on these bytes alone, wherever they stand. -/
  covers : op.size.toNat ≤ c.rest.length → ∀ c' : Cursor, c'.Within →
    c'.rest.take op.size.toNat = c.rest.take op.size.toNat →
    (op.step.run c').1 = (op.step.run c).1
  /-- A reader of the bytes that remain has this outcome and leaves what then remains. -/
  reads : op.reader c.rest = ((op.step.run c).1, (op.step.run c).2.rest)

variable {c : Cursor}

theorem length_rest_lt_of_overflow (hc : c.Within) {n : USize}
    (h : USize.size ≤ c.position.toNat + n.toNat) : c.rest.length < n.toNat :=
  (length_rest_lt_iff hc).2 (Nat.lt_of_lt_of_le c.data.fits h)

theorem disciplined_of_lt {op : Operation} (hc : c.Within)
    (hlt : c.rest.length < op.size.toNat) : Disciplined c op := by
  have hrun : op.step.run c = (.error .outOfBounds, c) := op.spans_step.runsOut hc hlt
  have hread := op.spans_reader.runsOut hlt
  exact {
    runsOut_iff := by simp [hrun, hlt]
    runsOut_of_overflow := fun _ => by rw [hrun]
    stays := fun _ => by rw [hrun]
    passes := fun hne => absurd (by rw [hrun]) hne
    answers := fun hge => absurd hlt (Nat.not_lt.2 hge)
    covers := fun hge => absurd hlt (Nat.not_lt.2 hge)
    reads := by rw [hread, hrun] }

theorem disciplined_of_le {op : Operation} (hc : c.Within)
    (hge : op.size.toNat ≤ c.rest.length) : Disciplined c op := by
  obtain ⟨next, hnext, hrun⟩ := op.spans_step.passes hc hge
  have hread := op.spans_reader.passes hge
  have hne : (op.step.run c).1 ≠ .error .outOfBounds := by
    rw [hrun]
    exact op.meaning_ne_outOfBounds _
  -- Where the bytes passed over are the same there are enough of them as well.
  have hcovers : ∀ c' : Cursor, c'.Within →
      c'.rest.take op.size.toNat = c.rest.take op.size.toNat →
      (op.step.run c').1 = (op.step.run c).1 := by
    intro c' hc' hsame
    have hge' : op.size.toNat ≤ c'.rest.length := by
      have hlength := congrArg List.length hsame
      rw [List.length_take, List.length_take] at hlength
      omega
    obtain ⟨next', -, hrun'⟩ := op.spans_step.passes hc' hge'
    rw [hrun, hrun', hsame]
  exact {
    runsOut_iff := iff_of_false hne (Nat.not_lt.2 hge)
    runsOut_of_overflow := fun h =>
      absurd (length_rest_lt_of_overflow hc h) (Nat.not_lt.2 hge)
    stays := fun hout => absurd hout hne
    passes := fun _ => by rw [hrun]; exact hnext
    answers := fun _ => by rw [hrun]; exact op.meaning_cases _
    covers := fun _ => hcovers
    reads := by rw [hread, hrun, hnext.rest] }

theorem disciplined_of_within (hc : c.Within) (op : Operation) : Disciplined c op := by
  rcases Nat.lt_or_ge c.rest.length op.size.toNat with hlt | hge
  · exact disciplined_of_lt hc hlt
  · exact disciplined_of_le hc hge

/-- The later cursor stands in the same bytes, and not before the earlier one. -/
structure Follows (c next : Cursor) : Prop where
  data : next.data = c.data
  position : c.position ≤ next.position
  within : next.Within

theorem Follows.trans {next last : Cursor} (h : Follows c next) (h' : Follows next last) :
    Follows c last where
  data := h'.data.trans h.data
  position := USize.le_trans h.position h'.position
  within := h'.within

theorem follows_step (hc : c.Within) (op : Operation) : Follows c (op.step.run c).2 := by
  have hop := disciplined_of_within hc op
  by_cases hout : (op.step.run c).1 = .error .outOfBounds
  · rw [hop.stays hout]
    exact ⟨rfl, USize.le_refl _, hc⟩
  · have hnext := hop.passes hout
    have hge : op.size.toNat ≤ c.rest.length := Nat.not_lt.1 (mt hop.runsOut_iff.2 hout)
    refine ⟨hnext.data, ?_, hnext.within hc hge⟩
    rw [USize.le_iff_toNat_le, hnext.position]
    exact Nat.le_add_right _ _

theorem follows_after (hc : c.Within) (ops : List Operation) : Follows c (c.after ops) := by
  induction ops generalizing c with
  | nil => exact ⟨rfl, USize.le_refl _, hc⟩
  | cons op ops ih =>
    have hstep := follows_step hc op
    exact hstep.trans (ih hstep.within)

/-- Behind any run a cursor stands in the bytes or at their end, it is not led back from there, and
whatever operation comes next keeps to the laws. -/
theorem disciplined_after (d : Buffer) (ops : List Operation) :
    ((start d).after ops).data = d ∧
    ((start d).after ops).position.toNat ≤ d.bytes.length ∧
    (∀ more, ((start d).after ops).position ≤ ((start d).after (ops ++ more)).position) ∧
    ∀ op, Disciplined ((start d).after ops) op := by
  have hrun := follows_after (within_start d) ops
  refine ⟨hrun.data, ?_, ?_, ?_⟩
  · have hplace := within_iff.1 hrun.within
    rwa [hrun.data] at hplace
  · intro more
    have happend : (start d).after (ops ++ more) = ((start d).after ops).after more :=
      List.foldl_append
    rw [happend]
    exact (follows_after hrun.within more).position
  · exact disciplined_of_within hrun.within

end Cursor

end MarkerIndex
