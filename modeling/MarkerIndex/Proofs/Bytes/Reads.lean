/-
What a reader takes: `Reads r bs a` says that on any bytes that start with `bs` the reader takes
exactly `bs` and answers `a`. The relation follows sequencing, so what a compound reader takes is
put together from what its parts take; a number takes its big-endian bytes and a text its bytes of
modified UTF-8.

The primitive readers need a number of bytes that is known beforehand. `Spans r n meaning` says all
about such a reader, and what it takes, where it runs out and what it accepts are read off from it.
-/
import MarkerIndex.Bytes.Reader
import MarkerIndex.Proofs.Text.Encoding
import Mathlib.Tactic.Ring

namespace MarkerIndex

/-! ## Big-endian numbers -/

namespace BigEndian

theorem length_encode (width n : Nat) : (encode width n).length = width := by
  induction width with
  | zero => rfl
  | succ w ih => simp [encode, ih]

theorem length_u16 (n : UInt16) : (u16 n).length = 2 := length_encode 2 _

theorem foldl_encode (width n acc : Nat) :
    (encode width n).foldl (fun n b => n * 256 + b.toNat) acc =
      acc * 256 ^ width + n % 256 ^ width := by
  induction width generalizing acc with
  | zero => simp [encode, Nat.mod_one]
  | succ w ih =>
    have hpow : Nat.pow 256 w = 256 ^ w := rfl
    -- The first byte is the highest digit that the remainder keeps.
    rw [encode, List.foldl_cons, ih, Nat.mod_pow_succ, hpow]
    have : (UInt8.ofNat (n / 256 ^ w)).toNat = n / 256 ^ w % 256 := by simp
    rw [this]; ring

/-- The bytes of a number spell it when there are enough of them. -/
theorem value_encode {width n : Nat} (h : n < 256 ^ width) : value (encode width n) = n := by
  unfold value
  rw [foldl_encode, Nat.mod_eq_of_lt h]; omega

end BigEndian

namespace Reader

variable {α β : Type}

/-! ## Sequencing -/

/-- The reader takes `bs` from the front of any bytes and answers `a`. -/
def Reads (r : Reader α) (bs : Bytes) (a : α) : Prop := ∀ rest, r (bs ++ rest) = (.ok a, rest)

theorem reads_pure (a : α) : Reads (pure a) [] a := fun _ => rfl

/-- Behind what the first part takes the second part goes on. -/
theorem Reads.run_bind {r : Reader α} {bs : Bytes} {a : α} (hr : Reads r bs a) (f : α → Reader β)
    (rest : Bytes) : (r >>= f) (bs ++ rest) = f a rest := by
  change andThen r f (bs ++ rest) = _
  rw [andThen, hr]

theorem Reads.bind {r : Reader α} {f : α → Reader β} {bs cs : Bytes} {a : α} {b : β}
    (hr : Reads r bs a) (hf : Reads (f a) cs b) : Reads (r >>= f) (bs ++ cs) b := by
  intro rest
  rw [List.append_assoc, hr.run_bind]
  exact hf rest

theorem Reads.map {r : Reader α} {bs : Bytes} {a : α} (hr : Reads r bs a) (f : α → β) :
    Reads (f <$> r) bs (f a) := by
  have := hr.bind (f := fun a => pure (f a)) (reads_pure (f a))
  rwa [List.append_nil] at this

/-- A reader that goes on without reading takes what the first part takes. -/
theorem Reads.bind_nil {r : Reader α} {f : α → Reader β} {bs : Bytes} {a : α} {b : β}
    (hr : Reads r bs a) (hf : Reads (f a) [] b) : Reads (r >>= f) bs b := by
  have := hr.bind hf
  rwa [List.append_nil] at this

/-- A sequence answers where both its parts do. -/
theorem bind_ok {r : Reader α} {f : α → Reader β} {bytes rest : Bytes} {b : β} :
    (r >>= f) bytes = (.ok b, rest) ↔
      ∃ a mid, r bytes = (.ok a, mid) ∧ f a mid = (.ok b, rest) := by
  show andThen r f bytes = _ ↔ _
  unfold andThen
  constructor
  · intro h
    rcases hr : r bytes with ⟨_ | a, mid⟩
    · rw [hr] at h; cases h
    · rw [hr] at h; exact ⟨a, mid, rfl, h⟩
  · rintro ⟨a, mid, hr, hf⟩
    rw [hr]; exact hf

theorem reads_ofExcept {e : Except Fault α} {a : α} (h : e = .ok a) : Reads (ofExcept e) [] a := by
  intro rest; rw [h]; rfl

/-! ## Readers of a known number of bytes -/

/-- The reader needs `n` bytes. Where fewer remain it runs out of bytes and takes none; where there
are so many it takes them and answers with what they mean, be it a fault. -/
structure Spans (r : Reader α) (n : Nat) (meaning : Bytes → Except Fault α) : Prop where
  runsOut : ∀ {bytes : Bytes}, bytes.length < n → r bytes = (.error .outOfBounds, bytes)
  passes : ∀ {bytes : Bytes}, n ≤ bytes.length → r bytes = (meaning (bytes.take n), bytes.drop n)

/-- What follows without reading interprets the answer. -/
theorem Spans.bind_still {r : Reader α} {n : Nat} {meaning : Bytes → Except Fault α}
    {f : α → Reader β} {g : α → Except Fault β} (hr : Spans r n meaning)
    (hf : ∀ a bytes, f a bytes = (g a, bytes)) : Spans (r >>= f) n fun bs => meaning bs >>= g where
  runsOut hn := by
    show andThen r f _ = _
    rw [andThen, hr.runsOut hn]
  passes {bytes} hn := by
    show andThen r f _ = _
    rw [andThen, hr.passes hn]
    cases meaning (bytes.take n) with
    | error flaw => rfl
    | ok a => exact hf a _

theorem Spans.reads {r : Reader α} {bs : Bytes} {meaning : Bytes → Except Fault α} {a : α}
    (hr : Spans r bs.length meaning) (ha : meaning bs = .ok a) : Reads r bs a := by
  intro rest
  have hlength : bs.length ≤ (bs ++ rest).length := by simp
  rw [hr.passes hlength, List.take_left, List.drop_left, ha]

theorem covers_iff {n : Nat} {bytes : Bytes} : covers n bytes = true ↔ n ≤ bytes.length := by
  induction n generalizing bytes with
  | zero => simp [covers]
  | succ n ih =>
    cases bytes with
    | nil => simp [covers]
    | cons b bytes => simp [covers, ih]

theorem spans_take (n : Nat) : Spans (take n) n .ok where
  runsOut hn := by
    rw [take, if_neg]
    rw [covers_iff]
    omega
  passes hn := by rw [take, if_pos (covers_iff.2 hn)]

/-- To pass over bytes is to take them and to keep nothing. -/
theorem skip_eq (n : Nat) : skip n = (fun _ => ()) <$> take n := by
  funext bytes
  show skip n bytes = andThen (take n) (fun _ => done ()) bytes
  unfold skip take andThen
  by_cases h : covers n bytes = true
  · simp only [if_pos h]; rfl
  · simp only [if_neg h]

theorem spans_skip (n : Nat) : Spans (skip n) n fun _ => .ok () := by
  rw [skip_eq]
  exact (spans_take n).bind_still fun _ _ => rfl

theorem spans_number (width : Nat) :
    Spans (number width) width fun bs => .ok (BigEndian.value bs) :=
  (spans_take width).bind_still fun _ _ => rfl

/-- The bytes of a text are taken also where they spell none. -/
theorem spans_text (n : Nat) : Spans (text n) n fun bs =>
    (Text.ModifiedUtf8.decode bs).mapError fun flaw => .malformed (.encoding flaw) := by
  refine (spans_take n).bind_still fun bs bytes => ?_
  cases Text.ModifiedUtf8.decode bs <;> rfl

/-! ## Bytes and numbers -/

theorem reads_take (bs : Bytes) : Reads (take bs.length) bs bs := (spans_take bs.length).reads rfl

theorem reads_skip (bs : Bytes) : Reads (skip bs.length) bs () := (spans_skip bs.length).reads rfl

theorem reads_number (width : Nat) {n : Nat} (h : n < 256 ^ width) :
    Reads (number width) (BigEndian.encode width n) n := by
  have ht := reads_take (BigEndian.encode width n)
  rw [BigEndian.length_encode] at ht
  have := ht.map BigEndian.value
  rwa [BigEndian.value_encode h] at this

theorem reads_u8 (n : UInt8) : Reads u8 [n] n := by
  have h := (reads_number 1 n.toNat_lt).map UInt8.ofNat
  have hb : BigEndian.encode 1 n.toNat = [n] := by
    change [UInt8.ofNat (n.toNat / 1)] = [n]
    simp
  rw [hb, UInt8.ofNat_toNat] at h
  exact h

theorem reads_u16 (n : UInt16) : Reads u16 (BigEndian.u16 n) n := by
  have h := (reads_number 2 n.toNat_lt).map UInt16.ofNat
  rw [UInt16.ofNat_toNat] at h
  exact h

theorem reads_u32 (n : UInt32) : Reads u32 (BigEndian.u32 n) n := by
  have h := (reads_number 4 n.toNat_lt).map UInt32.ofNat
  rw [UInt32.ofNat_toNat] at h
  exact h

theorem reads_u64 (n : UInt64) : Reads u64 (BigEndian.u64 n) n := by
  have h := (reads_number 8 n.toNat_lt).map UInt64.ofNat
  rw [UInt64.ofNat_toNat] at h
  exact h

theorem reads_i32 (n : Int32) : Reads i32 (BigEndian.u32 n.toUInt32) n :=
  (reads_u32 n.toUInt32).map UInt32.toInt32

theorem reads_i64 (n : Int64) : Reads i64 (BigEndian.u64 n.toUInt64) n :=
  (reads_u64 n.toUInt64).map UInt64.toInt64

/-- A count below 65536 is read back from its two bytes. -/
theorem reads_count {n : Nat} (h : n < 65536) :
    Reads u16 (BigEndian.encode 2 n) (UInt16.ofNat n) :=
  (reads_number 2 h).map UInt16.ofNat

/-- A length below two to the 32 is read back from its four bytes. -/
theorem reads_length {n : Nat} (h : n < 4294967296) :
    Reads u32 (BigEndian.encode 4 n) (UInt32.ofNat n) :=
  (reads_number 4 h).map UInt32.ofNat

/-! ## Text -/

/-- A text is read from all bytes that decode to it. -/
theorem reads_decoded {code : Bytes} {s : String} (h : Text.ModifiedUtf8.decode code = .ok s) :
    Reads (text code.length) code s := by
  refine (spans_text code.length).reads ?_
  rw [h]
  rfl

theorem reads_text (s : String) :
    Reads (text (Text.ModifiedUtf8.encode s).length) (Text.ModifiedUtf8.encode s) s :=
  reads_decoded (Text.ModifiedUtf8.decode_encode s)

end Reader

end MarkerIndex
