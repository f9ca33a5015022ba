/-
Exactly which bytes are accepted. A reader parses a grammar if it answers on those bytes only that
have a front which the grammar gives for the answer, and on all of them, and leaves what is behind
that front. The relation follows the ways in which readers are put together, so that one proof gives
both directions.
-/
import MarkerIndex.Proofs.Bytes.Cuts
import Mathlib.Data.List.Induction

namespace MarkerIndex

/-! ## Numbers -/

namespace BigEndian

theorem value_concat (bs : Bytes) (b : UInt8) : value (bs ++ [b]) = value bs * 256 + b.toNat := by
  unfold value
  rw [List.foldl_append]
  rfl

theorem value_lt (bs : Bytes) : value bs < 256 ^ bs.length := by
  induction bs using List.reverseRecOn with
  | nil => exact Nat.one_pos
  | append_singleton bs b ih =>
    have hb := b.toNat_lt
    rw [value_concat, List.length_append, List.length_singleton, Nat.pow_succ]
    omega

/-- The last byte of a number is what is left of it below 256. -/
theorem encode_succ (width n : Nat) :
    encode (width + 1) n = encode width (n / 256) ++ [UInt8.ofNat n] := by
  induction width with
  | zero => simp [encode]
  | succ w ih =>
    have hdigit : n / Nat.pow 256 (w + 1) = n / 256 / Nat.pow 256 w := by
      rw [Nat.div_div_eq_div_mul, Nat.mul_comm]
      rfl
    rw [encode, ih, hdigit]
    rfl

/-- Bytes are those of the number that they spell. -/
theorem encode_value (bs : Bytes) : encode bs.length (value bs) = bs := by
  induction bs using List.reverseRecOn with
  | nil => rfl
  | append_singleton bs b ih =>
    have hb := b.toNat_lt
    have hfront : (value bs * 256 + b.toNat) / 256 = value bs := by omega
    have hlast : UInt8.ofNat (value bs * 256 + b.toNat) = b := by
      apply UInt8.toNat_inj.1
      rw [UInt8.toNat_ofNat']
      omega
    rw [List.length_append, List.length_singleton, encode_succ, value_concat, hfront, hlast, ih]

end BigEndian

/-! ## Readers -/

namespace Reader

variable {α β : Type}

/-- The reader answers exactly on bytes with a front that `G` gives for the answer. -/
def Parses (r : Reader α) (G : α → Bytes → Prop) : Prop := ∀ bytes a rest,
  r bytes = (.ok a, rest) ↔ ∃ front, bytes = front ++ rest ∧ G a front

variable {r : Reader α} {f : α → Reader β} {G : α → Bytes → Prop} {H : α → β → Bytes → Prop}

theorem Parses.congr {G' : α → Bytes → Prop} (h : Parses r G) (hG : ∀ a bs, G a bs ↔ G' a bs) :
    Parses r G' := by
  intro bytes a rest
  simp only [h bytes a rest, hG]

theorem parses_of_still {A : α → Prop}
    (h : ∀ bytes a rest, r bytes = (.ok a, rest) ↔ A a ∧ rest = bytes) :
    Parses r fun a bs => A a ∧ bs = [] := by
  intro bytes a rest
  rw [h]
  constructor
  · rintro ⟨ha, rfl⟩
    exact ⟨[], rfl, ha, rfl⟩
  · rintro ⟨_, rfl, ha, rfl⟩
    exact ⟨ha, rfl⟩

theorem parses_pure (a : α) : Parses (pure a) fun b bs => b = a ∧ bs = [] := by
  refine parses_of_still fun bytes b rest => ?_
  show (Except.ok a, bytes) = _ ↔ _
  rw [Prod.mk.injEq, Except.ok.injEq, eq_comm, @eq_comm _ bytes]

theorem parses_fail (flaw : Fault) (G : α → Bytes → Prop) (hG : ∀ a bs, ¬ G a bs) :
    Parses (fail flaw) G := by
  intro bytes a rest
  constructor
  · rintro ⟨⟩
  · rintro ⟨front, -, h⟩
    exact absurd h (hG a front)

theorem parses_ofExcept (e : Except Fault α) :
    Parses (ofExcept e) fun a bs => e = .ok a ∧ bs = [] := by
  refine parses_of_still fun bytes a rest => ?_
  show (e, bytes) = _ ↔ _
  rw [Prod.mk.injEq, @eq_comm _ bytes]

theorem Parses.bind (hr : Parses r G) (hf : ∀ a, Parses (f a) (H a)) : Parses (r >>= f)
    fun b bs => ∃ a front back, bs = front ++ back ∧ G a front ∧ H a b back := by
  intro bytes b rest
  rw [bind_ok]
  constructor
  · rintro ⟨a, mid, hanswer, hrest⟩
    obtain ⟨front, rfl, hG⟩ := (hr _ _ _).1 hanswer
    obtain ⟨back, rfl, hH⟩ := (hf a _ _ _).1 hrest
    exact ⟨front ++ back, (List.append_assoc ..).symm, a, front, back, rfl, hG, hH⟩
  · rintro ⟨_, rfl, a, front, back, rfl, hG, hH⟩
    refine ⟨a, back ++ rest, (hr _ _ _).2 ⟨front, List.append_assoc .., hG⟩, ?_⟩
    exact (hf a _ _ _).2 ⟨back, rfl, hH⟩

/-- Where nothing more is read, all bytes belong to the first part. -/
theorem Parses.bind_still {A : α → β → Prop} (hr : Parses r G)
    (hf : ∀ a, Parses (f a) fun b bs => A a b ∧ bs = []) :
    Parses (r >>= f) fun b bs => ∃ a, G a bs ∧ A a b := by
  refine (hr.bind hf).congr fun b bs => ?_
  constructor
  · rintro ⟨a, front, _, rfl, hG, hA, rfl⟩
    exact ⟨a, by rwa [List.append_nil], hA⟩
  · rintro ⟨a, hG, hA⟩
    exact ⟨a, bs, [], (List.append_nil bs).symm, hG, hA, rfl⟩

/-- A reader of a known number of bytes answers on so many, with what they mean. -/
theorem Spans.parses {n : Nat} {meaning : Bytes → Except Fault α} (hr : Spans r n meaning) :
    Parses r fun a bs => bs.length = n ∧ meaning bs = .ok a := by
  intro bytes a rest
  constructor
  · intro h
    rcases Nat.lt_or_ge bytes.length n with hlt | hge
    · rw [hr.runsOut hlt] at h
      cases h
    · rw [hr.passes hge] at h
      obtain ⟨ha, rfl⟩ := Prod.mk.inj h
      exact ⟨bytes.take n, (List.take_append_drop n bytes).symm, List.length_take_of_le hge, ha⟩
  · rintro ⟨front, rfl, rfl, ha⟩
    exact hr.reads ha rest

theorem parses_take (n : Nat) : Parses (take n) fun a bs => bs = a ∧ a.length = n := by
  refine (spans_take n).parses.congr fun a bs => ?_
  rw [Except.ok.injEq]
  constructor
  · rintro ⟨hn, rfl⟩
    exact ⟨rfl, hn⟩
  · rintro ⟨rfl, hn⟩
    exact ⟨hn, rfl⟩

/-- A number is read from the bytes that spell it. -/
theorem parses_number (width : Nat) :
    Parses (number width) fun n bs => bs = BigEndian.encode width n ∧ n < 256 ^ width := by
  refine ((parses_take width).bind_still fun a => parses_pure (BigEndian.value a)).congr
    fun n bs => ?_
  constructor
  · rintro ⟨_, ⟨rfl, rfl⟩, rfl⟩
    exact ⟨(BigEndian.encode_value bs).symm, BigEndian.value_lt bs⟩
  · rintro ⟨rfl, hn⟩
    exact ⟨_, ⟨rfl, BigEndian.length_encode width n⟩, (BigEndian.value_encode hn).symm⟩

/-- A word is read from its bytes. -/
theorem parses_word {ω : Type} {width : Nat} {ofNat : Nat → ω} {toNat : ω → Nat}
    (hlt : ∀ w, toNat w < 256 ^ width) (hof : ∀ w, ofNat (toNat w) = w)
    (hto : ∀ n < 256 ^ width, toNat (ofNat n) = n) :
    Parses (do return ofNat (← number width)) fun w bs => bs = BigEndian.encode width (toNat w) := by
  refine ((parses_number width).bind_still fun n => parses_pure (ofNat n)).congr fun w bs => ?_
  constructor
  · rintro ⟨n, ⟨rfl, hn⟩, rfl⟩
    rw [hto n hn]
  · rintro rfl
    exact ⟨toNat w, ⟨rfl, hlt w⟩, (hof w).symm⟩

theorem parses_u8 : Parses u8 fun b bs => bs = [b] := by
  refine (parses_word UInt8.toNat_lt (fun _ => UInt8.ofNat_toNat)
    fun _ hn => UInt8.toNat_ofNat_of_lt' hn).congr fun b bs => ?_
  simp [BigEndian.encode]

theorem parses_u16 : Parses u16 fun n bs => bs = BigEndian.u16 n :=
  parses_word UInt16.toNat_lt (fun _ => UInt16.ofNat_toNat) fun _ hn => UInt16.toNat_ofNat_of_lt' hn

theorem parses_u32 : Parses u32 fun n bs => bs = BigEndian.u32 n :=
  parses_word UInt32.toNat_lt (fun _ => UInt32.ofNat_toNat) fun _ hn => UInt32.toNat_ofNat_of_lt' hn

theorem parses_u64 : Parses u64 fun n bs => bs = BigEndian.u64 n :=
  parses_word UInt64.toNat_lt (fun _ => UInt64.ofNat_toNat) fun _ hn => UInt64.toNat_ofNat_of_lt' hn

/-- A number that stands for a word is read from the bytes of the word. -/
theorem Parses.signed {ω ι : Type} {word : Reader ω} {code : ω → Bytes} {toInt : ω → ι}
    {toWord : ι → ω} (h : Parses word fun w bs => bs = code w)
    (hword : ∀ w, toWord (toInt w) = w) (hint : ∀ n, toInt (toWord n) = n) :
    Parses (do return toInt (← word)) fun n bs => bs = code (toWord n) := by
  refine (h.bind_still fun w => parses_pure (toInt w)).congr fun n bs => ?_
  constructor
  · rintro ⟨w, rfl, rfl⟩
    rw [hword]
  · rintro rfl
    exact ⟨toWord n, rfl, (hint n).symm⟩

theorem parses_i32 : Parses i32 fun n bs => bs = BigEndian.u32 n.toUInt32 :=
  parses_u32.signed (fun _ => rfl) fun _ => rfl

theorem parses_i64 : Parses i64 fun n bs => bs = BigEndian.u64 n.toUInt64 :=
  parses_u64.signed (fun _ => rfl) fun _ => rfl

/-- A text is read from all bytes that decode to it. -/
theorem parses_text (n : Nat) : Parses (text n) fun s bs =>
    bs.length = n ∧ Text.ModifiedUtf8.decode bs = .ok s := by
  refine (spans_text n).parses.congr fun s bs => ?_
  cases Text.ModifiedUtf8.decode bs <;> simp [Except.mapError]

end Reader

end MarkerIndex
