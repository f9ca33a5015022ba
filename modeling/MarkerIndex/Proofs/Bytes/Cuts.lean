/-
Readers on bytes that are cut off. A reader is exact when every answer it gives rests on the bytes
that it took: whatever stands behind them it takes the same bytes and answers the same, and of
fewer of them it runs out. The primitive readers are exact because they ask whether enough bytes
remain before they look at any, and sequencing keeps it.
-/
import MarkerIndex.Proofs.Bytes.Reads

namespace MarkerIndex.Reader

variable {α β : Type}

/-- The answers of the reader rest on the bytes that it takes, on all of them and on no others. -/
def Exact (r : Reader α) : Prop := ∀ bytes a rest, r bytes = (.ok a, rest) →
  ∃ taken, bytes = taken ++ rest ∧ Reads r taken a ∧
    ∀ k < taken.length, (r (taken.take k)).1 = .error .outOfBounds

/-- A reader that answers with what is known takes nothing. -/
theorem exact_of_nil {r : Reader α} (h : ∀ bytes a rest, r bytes = (.ok a, rest) →
    rest = bytes ∧ Reads r [] a) : Exact r := by
  intro bytes a rest hr
  obtain ⟨rfl, hreads⟩ := h bytes a rest hr
  refine ⟨[], rfl, hreads, ?_⟩
  intro k hk
  exact absurd hk (Nat.not_lt_zero k)

@[simp] theorem exact_pure (a : α) : Exact (pure a) := by
  apply exact_of_nil
  rintro bytes _ _ ⟨⟩
  exact ⟨rfl, reads_pure a⟩

@[simp] theorem exact_done (a : α) : Exact (done a) := exact_pure a

@[simp] theorem exact_fail (f : Fault) : Exact (fail f : Reader α) := by
  rintro bytes a rest ⟨⟩

@[simp] theorem exact_ofExcept (e : Except Fault α) : Exact (ofExcept e) := by
  apply exact_of_nil
  intro bytes a rest h
  obtain ⟨he, rfl⟩ := Prod.mk.inj h
  exact ⟨rfl, reads_ofExcept he⟩

/-- A fault of the first part is a fault of the whole. -/
theorem bind_error {r : Reader α} {f : α → Reader β} {bytes : Bytes} {flaw : Fault}
    (h : (r bytes).1 = .error flaw) : ((r >>= f) bytes).1 = .error flaw := by
  show (andThen r f bytes).1 = _
  unfold andThen
  rcases hr : r bytes with ⟨_ | _, _⟩
  · rw [hr] at h; cases h; rfl
  · rw [hr] at h; cases h

/-- And so is a fault of the second part behind what the first one takes. -/
theorem Reads.bind_error {r : Reader α} {f : α → Reader β} {bs rest : Bytes} {a : α} {flaw : Fault}
    (hr : Reads r bs a) (h : (f a rest).1 = .error flaw) :
    ((r >>= f) (bs ++ rest)).1 = .error flaw := by
  rw [hr.run_bind]
  exact h

@[simp] theorem exact_bind {r : Reader α} {f : α → Reader β} (hr : Exact r)
    (hf : ∀ a, Exact (f a)) : Exact (r >>= f) := by
  intro bytes b rest h
  obtain ⟨a, mid, hanswer, hrest⟩ := bind_ok.1 h
  obtain ⟨front, rfl, hfront, hcut⟩ := hr bytes a mid hanswer
  obtain ⟨back, rfl, hback, hcut'⟩ := hf a mid b rest hrest
  refine ⟨front ++ back, (List.append_assoc ..).symm, hfront.bind hback, ?_⟩
  intro k hk
  -- The cut goes through what the first part takes, or through what the second one takes.
  rcases Nat.lt_or_ge k front.length with hlt | hge
  · rw [List.take_append_of_le_length (by omega)]
    exact bind_error (hcut k hlt)
  · rw [List.take_append, List.take_of_length_le hge]
    rw [List.length_append] at hk
    exact hfront.bind_error (hcut' (k - front.length) (by omega))

@[simp] theorem exact_map {r : Reader α} (g : α → β) (hr : Exact r) : Exact (g <$> r) :=
  exact_bind hr fun a => exact_pure (g a)

/-! ## Bytes, numbers and text -/

/-- A reader of a known number of bytes asks for all of them before it looks at any. -/
theorem Spans.exact {r : Reader α} {n : Nat} {meaning : Bytes → Except Fault α}
    (hr : Spans r n meaning) : Exact r := by
  intro bytes a rest h
  rcases Nat.lt_or_ge bytes.length n with hlt | hge
  · rw [hr.runsOut hlt] at h
    cases h
  · rw [hr.passes hge] at h
    obtain ⟨ha, rfl⟩ := Prod.mk.inj h
    have hlength : (bytes.take n).length = n := List.length_take_of_le hge
    refine ⟨bytes.take n, (List.take_append_drop n bytes).symm, ?_, ?_⟩
    · rw [← hlength] at hr
      exact hr.reads ha
    · intro k hk
      rw [hr.runsOut]
      rw [List.length_take, List.length_take]
      omega

@[simp] theorem exact_take (n : Nat) : Exact (take n) := (spans_take n).exact
@[simp] theorem exact_skip (n : Nat) : Exact (skip n) := (spans_skip n).exact
@[simp] theorem exact_u8 : Exact u8 := by simp [u8, number]
@[simp] theorem exact_u16 : Exact u16 := by simp [u16, number]
@[simp] theorem exact_u32 : Exact u32 := by simp [u32, number]
@[simp] theorem exact_u64 : Exact u64 := by simp [u64, number]
@[simp] theorem exact_i32 : Exact i32 := by simp [i32]
@[simp] theorem exact_i64 : Exact i64 := by simp [i64]

@[simp] theorem exact_text (n : Nat) : Exact (text n) := (spans_text n).exact

end MarkerIndex.Reader
