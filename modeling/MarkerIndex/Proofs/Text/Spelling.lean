/-
Which bytes spell which text. Bytes of modified UTF-8 split into groups of one, two or three bytes,
and each group stands for a unit of 16 bits. They spell a text exactly if they split in this way and
the units are well paired, and the text is then the one that has these units. So reading a text
takes all the bytes it is given, answers the text that they spell, and calls them malformed if they
spell none. The bytes that are written for a text spell it, and no zero byte is among them.
-/
import MarkerIndex.Proofs.Bytes.Cuts

namespace MarkerIndex

namespace Text

/-! ## Units -/

namespace Utf16

/-- Each high surrogate has a low one behind it, and no other low surrogate occurs. -/
inductive WellPaired : List Nat → Prop
  | nil : WellPaired []
  | single {u : Nat} {us : List Nat} (hu : u < 0xD800 ∨ 0xE000 ≤ u) (h : WellPaired us) :
      WellPaired (u :: us)
  | pair {high low : Nat} {us : List Nat} (hhigh : 0xD800 ≤ high ∧ high < 0xDC00)
      (hlow : 0xDC00 ≤ low ∧ low < 0xE000) (h : WellPaired us) : WellPaired (high :: low :: us)

theorem isHighSurrogate_iff {u : Nat} : isHighSurrogate u = true ↔ 0xD800 ≤ u ∧ u < 0xDC00 := by
  simp [isHighSurrogate]

theorem isLowSurrogate_iff {u : Nat} : isLowSurrogate u = true ↔ 0xDC00 ≤ u ∧ u < 0xE000 := by
  simp [isLowSurrogate]

theorem units_ofNat {u : Nat} (hu : u < 0xD800 ∨ 0xE000 ≤ u) (hlt : u < 0x10000) :
    units (Char.ofNat u) = [u] := by
  unfold units
  rw [toNat_ofNat hu (by omega), if_pos hlt]

theorem units_pair {high low : Nat} (hhigh : 0xD800 ≤ high ∧ high < 0xDC00)
    (hlow : 0xDC00 ≤ low ∧ low < 0xE000) : units (pair high low) = [high, low] := by
  have hhalf : 0xD800 + (0x10000 + (high - 0xD800) * 0x400 + (low - 0xDC00) - 0x10000) / 0x400 =
      high := by omega
  have hrest : 0xDC00 + (0x10000 + (high - 0xD800) * 0x400 + (low - 0xDC00) - 0x10000) % 0x400 =
      low := by omega
  unfold units pair
  rw [toNat_ofNat (by omega) (by omega), if_neg (by omega), hhalf, hrest]

/-- Well-paired units are those of a text. -/
theorem WellPaired.exists_encode {us : List Nat} (h : WellPaired us)
    (hlt : ∀ u ∈ us, u < 0x10000) : ∃ cs, encode cs = us := by
  induction h with
  | nil => exact ⟨[], rfl⟩
  | @single u us hu _ ih =>
    rw [List.forall_mem_cons] at hlt
    obtain ⟨cs, rfl⟩ := ih hlt.2
    refine ⟨Char.ofNat u :: cs, ?_⟩
    rw [encode, List.flatMap_cons, units_ofNat hu hlt.1]
    rfl
  | @pair high low us hhigh hlow _ ih =>
    obtain ⟨cs, rfl⟩ := ih fun u hu => hlt u (by simp [hu])
    refine ⟨Utf16.pair high low :: cs, ?_⟩
    rw [encode, List.flatMap_cons, units_pair hhigh hlow]
    rfl

/-- Units that decode are well paired. -/
theorem wellPaired_of_decode {us : List Nat} {cs : List Char} (h : decode us = some cs) :
    WellPaired us := by
  fun_induction decode us generalizing cs with
  | case1 => exact .nil
  | case2 => cases h
  | case3 high hhigh low us hlow ih =>
    obtain ⟨cs, hcs, -⟩ := Option.map_eq_some_iff.1 h
    exact .pair (isHighSurrogate_iff.1 hhigh) (isLowSurrogate_iff.1 hlow) (ih hcs)
  | case4 => cases h
  | case5 => cases h
  | case6 u us hhigh hlow ih =>
    obtain ⟨cs, hcs, -⟩ := Option.map_eq_some_iff.1 h
    rw [isHighSurrogate_iff] at hhigh
    rw [isLowSurrogate_iff] at hlow
    exact .single (by omega) (ih hcs)

/-- Units of 16 bits decode to the text that has them. -/
theorem decode_eq_some_iff {us : List Nat} (hlt : ∀ u ∈ us, u < 0x10000) {cs : List Char} :
    decode us = some cs ↔ encode cs = us := by
  constructor
  · intro h
    obtain ⟨cs', rfl⟩ := (wellPaired_of_decode h).exists_encode hlt
    rw [decode_encode] at h
    rw [Option.some.inj h]
  · rintro rfl
    exact decode_encode cs

end Utf16

/-! ## Groups of bytes -/

namespace ModifiedUtf8

/-- The bytes of a group, and the unit that it stands for. A unit may have several groups: it need
not be the shortest. -/
inductive Group : List UInt8 → Nat → Prop
  /-- The form `0xxxxxxx`. -/
  | one {x : Nat} (hx : x < 0x80) : Group [.ofNat x] x
  /-- The form `110xxxxx 10yyyyyy`. -/
  | two {x y : Nat} (hx : x < 0x20) (hy : y < 0x40) :
      Group [.ofNat (0xC0 + x), .ofNat (0x80 + y)] (x * 0x40 + y)
  /-- The form `1110xxxx 10yyyyyy 10zzzzzz`. -/
  | three {x y z : Nat} (hx : x < 0x10) (hy : y < 0x40) (hz : z < 0x40) :
      Group [.ofNat (0xE0 + x), .ofNat (0x80 + y), .ofNat (0x80 + z)]
        (x * 0x1000 + y * 0x40 + z)

/-- The bytes of groups one after the other, and the units that they stand for. -/
inductive Groups : List UInt8 → List Nat → Prop
  | nil : Groups [] []
  | cons {group bytes : List UInt8} {u : Nat} {us : List Nat} (h : Group group u)
      (h' : Groups bytes us) : Groups (group ++ bytes) (u :: us)

section Groups

variable {bytes : List UInt8} {us : List Nat}

theorem Groups.lt (h : Groups bytes us) : ∀ u ∈ us, u < 0x10000 := by
  induction h with
  | nil => simp
  | cons hgroup _ ih =>
    refine List.forall_mem_cons.2 ⟨?_, ih⟩
    cases hgroup with
    | one | two | three => omega

theorem group_one {a : UInt8} (ha : a.toNat < 0x80) : Group [a] a.toNat := by
  have hgroup := Group.one ha
  rwa [UInt8.ofNat_toNat] at hgroup

theorem group_two {a b : UInt8} (ha : a.toNat / 0x20 = 6) (hb : b.toNat / 0x40 = 2) :
    Group [a, b] (a.toNat % 0x20 * 0x40 + b.toNat % 0x40) := by
  have hgroup := Group.two (x := a.toNat % 0x20) (y := b.toNat % 0x40) (by omega) (by omega)
  rwa [show 0xC0 + a.toNat % 0x20 = a.toNat by omega,
    show 0x80 + b.toNat % 0x40 = b.toNat by omega, UInt8.ofNat_toNat, UInt8.ofNat_toNat] at hgroup

theorem group_three {a b c : UInt8} (ha : a.toNat / 0x10 = 14) (hb : b.toNat / 0x40 = 2)
    (hc : c.toNat / 0x40 = 2) :
    Group [a, b, c] (a.toNat % 0x10 * 0x1000 + b.toNat % 0x40 * 0x40 + c.toNat % 0x40) := by
  have hgroup := Group.three (x := a.toNat % 0x10) (y := b.toNat % 0x40) (z := c.toNat % 0x40)
    (by omega) (by omega) (by omega)
  rwa [show 0xE0 + a.toNat % 0x10 = a.toNat by omega,
    show 0x80 + b.toNat % 0x40 = b.toNat by omega, show 0x80 + c.toNat % 0x40 = c.toNat by omega,
    UInt8.ofNat_toNat, UInt8.ofNat_toNat, UInt8.ofNat_toNat] at hgroup

theorem isContinuation_iff {b : UInt8} : isContinuation b = true ↔ b.toNat / 0x40 = 2 := by
  simp [isContinuation]

theorem cons_of_map {u : Nat} (h : (decodeUnits bytes).map (u :: ·) = .ok us) :
    ∃ us', us = u :: us' ∧ decodeUnits bytes = .ok us' := by
  cases hbytes : decodeUnits bytes with
  | error flaw => rw [hbytes] at h; cases h
  | ok us' => rw [hbytes] at h; cases h; exact ⟨us', rfl, rfl⟩

theorem groups_of_decodeUnits (h : decodeUnits bytes = .ok us) : Groups bytes us := by
  -- As the reading recurs: a group of one, two or three bytes is taken from the front.
  fun_induction decodeUnits bytes generalizing us with
  | case1 => cases h; exact .nil
  | case2 a rest ha ih =>
    obtain ⟨us, rfl, hus⟩ := cons_of_map h
    exact .cons (group_one ha) (ih hus)
  | case4 a _ ha b rest hb ih =>
    obtain ⟨us, rfl, hus⟩ := cons_of_map h
    exact .cons (group_two ha (isContinuation_iff.1 hb)) (ih hus)
  | case8 a _ _ ha b hb c rest hc ih =>
    obtain ⟨us, rfl, hus⟩ := cons_of_map h
    exact .cons (group_three ha (isContinuation_iff.1 hb) (isContinuation_iff.1 hc)) (ih hus)
  | case3 | case5 | case6 | case7 | case9 | case10 | case11 => cases h

theorem decodeUnits_of_groups (h : Groups bytes us) : decodeUnits bytes = .ok us := by
  have byte : ∀ n, n < 0x100 → (UInt8.ofNat n).toNat = n := fun n hn => by simp; omega
  induction h with
  | nil => rfl
  | cons hgroup _ ih =>
    cases hgroup with
    | one hx =>
      rw [List.singleton_append, decodeUnits_one (by rw [byte] <;> omega), byte _ (by omega), ih]
      rfl
    | @two x y hx hy =>
      rw [List.cons_append, List.singleton_append,
        decodeUnits_two (by rw [byte] <;> omega) (by rw [byte] <;> omega), byte _ (by omega),
        byte _ (by omega), ih,
        show (0xC0 + x) % 0x20 * 0x40 + (0x80 + y) % 0x40 = x * 0x40 + y by omega]
      rfl
    | @three x y z hx hy hz =>
      rw [List.cons_append, List.cons_append, List.singleton_append,
        decodeUnits_three (by rw [byte] <;> omega) (by rw [byte] <;> omega)
          (by rw [byte] <;> omega),
        byte _ (by omega), byte _ (by omega), byte _ (by omega), ih,
        show (0xE0 + x) % 0x10 * 0x1000 + (0x80 + y) % 0x40 * 0x40 + (0x80 + z) % 0x40 =
          x * 0x1000 + y * 0x40 + z by omega]
      rfl

/-- Units are read from bytes exactly if the bytes split into groups that stand for them. -/
theorem decodeUnits_eq_ok_iff : decodeUnits bytes = .ok us ↔ Groups bytes us :=
  ⟨groups_of_decodeUnits, decodeUnits_of_groups⟩

end Groups

/-! ## Texts -/

section Texts

variable {bytes : List UInt8} {s : String}

/-- Bytes spell the text whose units their groups stand for. -/
theorem decodeGroups_eq_ok_iff : decodeGroups bytes = .ok s ↔
    ∃ us, Groups bytes us ∧ Utf16.WellPaired us ∧ Utf16.encode s.toList = us := by
  unfold decodeGroups
  constructor
  · intro h
    cases hunits : decodeUnits bytes with
    | error flaw => simp [hunits] at h
    | ok us =>
      have hgroups := decodeUnits_eq_ok_iff.1 hunits
      simp only [hunits] at h
      cases hdecode : Utf16.decode us with
      | none => simp [hdecode] at h
      | some cs =>
        simp only [hdecode, Except.ok.injEq] at h
        subst h
        refine ⟨us, hgroups, Utf16.wellPaired_of_decode hdecode, ?_⟩
        rw [String.toList_ofList]
        exact (Utf16.decode_eq_some_iff hgroups.lt).1 hdecode
  · rintro ⟨us, hgroups, -, rfl⟩
    simp only [decodeUnits_eq_ok_iff.2 hgroups, Utf16.decode_encode, String.ofList_toList]

/-- Bytes have a flaw exactly if they spell no text. -/
theorem exists_flaw_iff : (∃ flaw, decodeGroups bytes = .error flaw) ↔
    ¬ ∃ us, Groups bytes us ∧ Utf16.WellPaired us := by
  constructor
  · rintro ⟨flaw, hflaw⟩ ⟨us, hgroups, hpaired⟩
    obtain ⟨cs, hcs⟩ := hpaired.exists_encode hgroups.lt
    have hok : decodeGroups bytes = .ok (String.ofList cs) :=
      decodeGroups_eq_ok_iff.2 ⟨us, hgroups, hpaired, by rw [String.toList_ofList, hcs]⟩
    rw [hok] at hflaw
    cases hflaw
  · intro hnone
    cases h : decodeGroups bytes with
    | error flaw => exact ⟨flaw, rfl⟩
    | ok s =>
      obtain ⟨us, hgroups, hpaired, -⟩ := decodeGroups_eq_ok_iff.1 h
      exact absurd ⟨us, hgroups, hpaired⟩ hnone

/-- Plain bytes are a group each. -/
theorem decodeGroups_ascii (h : ∀ b ∈ bytes, b.toNat < 0x80) :
    decodeGroups bytes = .ok (String.ofList (bytes.map fun b => Char.ofNat b.toNat)) := by
  rw [← decode_eq_decodeGroups]
  unfold decode
  rw [if_pos]
  simpa [isAscii] using h

theorem encodeUnit_bytes {u : Nat} (hu : u < 0x10000) :
    ∀ b ∈ encodeUnit u, 0 < b.toNat ∧ b.toNat ≤ 0xEF := by
  have byte : ∀ n, 0 < n → n ≤ 0xEF →
      0 < (UInt8.ofNat n).toNat ∧ (UInt8.ofNat n).toNat ≤ 0xEF := by
    intro n hpos hle
    simp
    omega
  unfold encodeUnit
  split_ifs with h1 h2
  · have hplain : 0 < u ∧ u < 0x80 := by simpa using h1
    simp only [List.forall_mem_singleton]
    exact byte u (by omega) (by omega)
  · simp only [List.forall_mem_cons, List.not_mem_nil, IsEmpty.forall_iff, implies_true, and_true]
    exact ⟨byte _ (by omega) (by omega), byte _ (by omega) (by omega)⟩
  · simp only [List.forall_mem_cons, List.not_mem_nil, IsEmpty.forall_iff, implies_true, and_true]
    exact ⟨byte _ (by omega) (by omega), byte _ (by omega) (by omega),
      byte _ (by omega) (by omega)⟩

end Texts

end ModifiedUtf8

end Text

/-! ## Reading texts -/

namespace Reader

open Text Text.ModifiedUtf8

/-- Reading a text takes the bytes and leaves what is behind them. -/
theorem text_append (front back : Bytes) : text front.length (front ++ back) =
    ((decodeGroups front).mapError fun flaw => .malformed (.encoding flaw), back) := by
  have hlength : front.length ≤ (front ++ back).length := by simp
  rw [(spans_text front.length).passes hlength, List.take_left, List.drop_left,
    decode_eq_decodeGroups]

/-- The bytes that are written for a text hold no zero and nothing above `0xEF`. They are read as
the text, and it makes no difference whether plain bytes are taken one by one or as groups. -/
theorem text_encode (s : String) :
    (∀ b ∈ encode s, b ≠ 0 ∧ b ≤ 0xEF) ∧
    (∀ rest, text (encode s).length (encode s ++ rest) = (.ok s, rest)) ∧
    decodeGroups (encode s) = .ok s ∧
    ((encode s).all isAscii = true →
      String.ofList ((encode s).map fun b => Char.ofNat b.toNat) = s) := by
  have hgroups : decodeGroups (encode s) = .ok s := by
    rw [← decode_eq_decodeGroups, decode_encode]
  refine ⟨?_, reads_text s, hgroups, ?_⟩
  · intro b hb
    obtain ⟨u, hu, hb⟩ := List.mem_flatMap.1 hb
    obtain ⟨hpos, hle⟩ := encodeUnit_bytes (Utf16.encode_lt _ u hu) b hb
    refine ⟨?_, UInt8.le_iff_toNat_le.2 hle⟩
    rintro rfl
    exact absurd hpos (by decide)
  · intro hplain
    have hall : ∀ b ∈ encode s, b.toNat < 0x80 := by simpa [isAscii] using hplain
    rw [decodeGroups_ascii hall] at hgroups
    exact Except.ok.inj hgroups

/-- Exactly the bytes whose groups stand for well-paired units are read as a text, the one with
these units; all others are malformed, and the bytes are taken in both cases. Where there are not
enough of them none is taken. Plain bytes are a character each, as groups and without grouping. -/
theorem text_accepts :
    (∀ front back : Bytes,
      (text front.length (front ++ back)).2 = back ∧
      (∀ s, (text front.length (front ++ back)).1 = .ok s ↔
        ∃ us, Groups front us ∧ Utf16.WellPaired us ∧ Utf16.encode s.toList = us) ∧
      ((∃ flaw, (text front.length (front ++ back)).1 = .error (.malformed (.encoding flaw))) ↔
        ¬ ∃ us, Groups front us ∧ Utf16.WellPaired us)) ∧
    (∀ (n : Nat) (bytes : Bytes), bytes.length < n →
      text n bytes = (.error .outOfBounds, bytes)) ∧
    (∀ bytes : Bytes, bytes.all isAscii = true → decode bytes = decodeGroups bytes ∧
      decodeGroups bytes = .ok (String.ofList (bytes.map fun b => Char.ofNat b.toNat))) := by
  refine ⟨?_, ?_, ?_⟩
  · intro front back
    rw [text_append, ← exists_flaw_iff]
    refine ⟨rfl, fun s => ?_, ?_⟩
    · rw [← decodeGroups_eq_ok_iff]
      cases decodeGroups front <;> simp [Except.mapError]
    · cases decodeGroups front <;> simp [Except.mapError]
  · intro n bytes hshort
    have hcovers : ¬ covers n bytes = true := by
      rw [covers_iff]
      omega
    show andThen (take n) _ bytes = _
    unfold andThen take
    rw [if_neg hcovers]
  · intro bytes hplain
    have hall : ∀ b ∈ bytes, b.toNat < 0x80 := by simpa [isAscii] using hplain
    exact ⟨decode_eq_decodeGroups bytes, decodeGroups_ascii hall⟩

/-- An overlong group, and a pair of surrogates in two groups. -/
example : text 8 [0xC1, 0x81, 0xED, 0xA0, 0xBD, 0xED, 0xB8, 0x80, 0x41] = (.ok "A😀", [0x41]) := by
  decide

end Reader

end MarkerIndex
