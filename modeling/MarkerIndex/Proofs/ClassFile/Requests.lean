/-
Requests for constants, one after another. An index that was given out stays that of its constant,
whatever is asked for later, so equal requests are answered alike and different ones are not. The
table that the requests lead to is read back from its bytes: each index leads to the constant that
was asked for, and the slot behind a wide constant is unused.
-/
import MarkerIndex.Proofs.ClassFile.Interning

namespace MarkerIndex.ClassFile

open ConstantTable

/-! ## Indices that were given out -/

namespace TableBuilder

/-- The indices given out by one table are given out by the other. -/
def Remembers (t t' : TableBuilder) : Prop :=
  ∀ (c : Constant) (i : UInt16), t.known[c]? = some i → t'.known[c]? = some i

theorem Remembers.trans {t t' t'' : TableBuilder} (h : t.Remembers t') (h' : t'.Remembers t'') :
    t.Remembers t'' := fun c i hi => h' c i (h c i hi)

/-- A request gives out its index and forgets none. -/
theorem intern_remembers {t t' : TableBuilder} {c : Constant} {i : UInt16}
    (h : t.intern c = .ok (i, t')) : t.Remembers t' ∧ t'.known[c]? = some i := by
  obtain ⟨hi, rfl⟩ | ⟨hnew, -, -, -, rfl⟩ := intern_cases h
  · exact ⟨fun _ _ hd => hd, hi⟩
  · refine ⟨fun d j hj => ?_, by simp⟩
    -- What has an index already is not the new constant.
    have hne : c ≠ d := by
      rintro rfl
      rw [hnew] at hj
      cases hj
    rw [Std.HashMap.getElem?_insert, if_neg (by simpa using hne), hj]

/-- A sequence of requests keeps the table valid, and in the end every index is that of its
constant. -/
theorem requests_spec {requests : List Constant} {indices : List UInt16} {t t' : TableBuilder}
    (hv : t.Valid) (h : requests.mapM Interning.constant t = .ok (indices, t')) :
    t'.Valid ∧ t.Remembers t' ∧
      List.Forall₂ (fun c i => t'.known[c]? = some i) requests indices := by
  induction requests generalizing indices t with
  | nil =>
    cases h
    exact ⟨hv, fun _ _ hd => hd, .nil⟩
  | cons c requests ih =>
    rw [List.mapM_cons] at h
    obtain ⟨i, u, hfirst, h⟩ := Interning.bind_ok h
    obtain ⟨is, w, hrest, h⟩ := Interning.bind_ok h
    cases h
    obtain ⟨hremembers, hknown⟩ := intern_remembers hfirst
    obtain ⟨hvalid, hlater, hall⟩ := ih (intern_spec hv hfirst).1 hrest
    exact ⟨hvalid, hremembers.trans hlater, .cons (hlater c i hknown) hall⟩

/-- Different constants have different indices. -/
theorem Valid.index_inj {t : TableBuilder} (hv : t.Valid) {c d : Constant} {i : UInt16}
    (hc : t.known[c]? = some i) (hd : t.known[d]? = some i) : c = d := by
  have := (hv.known c i hc).symm.trans (hv.known d i hd)
  simpa using this

/-- Two answers are the same index exactly when the same constant was asked for. -/
theorem Valid.index_eq_iff {t : TableBuilder} (hv : t.Valid) {requests : List Constant}
    {indices : List UInt16} (h : List.Forall₂ (fun c i => t.known[c]? = some i) requests indices)
    (p q : Nat) : indices[p]? = indices[q]? ↔ requests[p]? = requests[q]? := by
  have hat : ∀ n : Nat, indices[n]? = none ∧ requests[n]? = none ∨
      ∃ c i, indices[n]? = some i ∧ requests[n]? = some c ∧ t.known[c]? = some i := by
    intro n
    by_cases hn : n < requests.length
    · have hn' : n < indices.length := h.length_eq ▸ hn
      exact .inr ⟨_, _, List.getElem?_eq_getElem hn', List.getElem?_eq_getElem hn, h.get hn hn'⟩
    · have hn' : ¬ n < indices.length := h.length_eq ▸ hn
      exact .inl ⟨List.getElem?_eq_none (by omega), List.getElem?_eq_none (by omega)⟩
  rcases hat p with ⟨hp, hp'⟩ | ⟨c, i, hp, hp', hc⟩ <;>
    rcases hat q with ⟨hq, hq'⟩ | ⟨d, j, hq, hq', hd⟩ <;>
    simp only [hp, hp', hq, hq', Option.some.injEq, reduceCtorEq]
  constructor
  · rintro rfl
    exact hv.index_inj hc hd
  · rintro rfl
    exact Option.some.inj (hc.symm.trans hd)

end TableBuilder

/-! ## Unused slots -/

namespace ConstantTable

/-- Behind a wide constant the table has an unused slot, which cannot be looked up. -/
theorem unused_behind_wide {cs : List Constant} (hn : (ofConstants cs).size < 65536) {i : UInt16}
    {c : Constant} (h : (ofConstants cs).get i = .ok c) (hw : c.isWide = true) :
    (ofConstants cs).slots[i.toNat + 1]? = some none ∧
      (ofConstants cs).get (i + 1) = .error (.malformed (.constantIndex (i + 1))) := by
  have hslot := get_eq_ok_iff.1 h
  have hnext : (ofConstants cs).slots[i.toNat + 1]? = some none := by
    simp only [ofConstants, List.getElem?_toArray] at hslot ⊢
    cases hi : i.toNat with
    | zero => simp [hi] at hslot
    | succ n =>
      rw [hi, List.getElem?_cons_succ] at hslot
      rw [List.getElem?_cons_succ]
      exact layout_unused_iff.2 ⟨c, hslot, hw⟩
  refine ⟨hnext, ?_⟩
  have hlt : i.toNat + 1 < (ofConstants cs).size := (Array.getElem?_eq_some_iff.1 hnext).1
  have hsucc : (i + 1).toNat = i.toNat + 1 := by
    rw [UInt16.toNat_add]
    exact Nat.mod_eq_of_lt (by change i.toNat + 1 < 65536; omega)
  unfold get
  rw [hsucc, hnext]

end ConstantTable

/-! ## The table read back -/

/-- When all requests to the empty table succeed, its count and bytes read back as a table with as
many slots; every index leads to the constant asked for; two indices are equal exactly when the
constants are; and behind every wide constant there is an unused slot. -/
theorem table_of_requests {requests : List Constant} {indices : List UInt16} {t : TableBuilder}
    (h : requests.mapM Interning.constant .empty = .ok (indices, t)) :
    ∃ T : ConstantTable,
      Reader.Reads ConstantTable.read (BigEndian.encode 2 t.next ++ t.encode) T ∧ T.size = t.next ∧
      List.Forall₂ (fun c i => T.get i = .ok c) requests indices ∧
      (∀ p q : Nat, indices[p]? = indices[q]? ↔ requests[p]? = requests[q]?) ∧
      ∀ (i : UInt16) (c : Constant), T.get i = .ok c → c.isWide = true →
        T.slots[i.toNat + 1]? = some none ∧
          T.get (i + 1) = .error (.malformed (.constantIndex (i + 1))) := by
  obtain ⟨hv, -, hall⟩ := TableBuilder.requests_spec TableBuilder.empty_valid h
  have hnext : t.next = (layout t.constants.toList).length + 1 := hv.next
  have hsize : (ofConstants t.constants.toList).size = t.next := by
    rw [hnext]
    simp [ConstantTable.size, ofConstants]
  have hbound : t.next < 65536 := Nat.lt_succ_of_lt hv.bound
  refine ⟨ofConstants t.constants.toList, ?_, hsize, ?_, hv.index_eq_iff hall, ?_⟩
  · rw [hnext]
    exact reads_table hv.fits (hnext ▸ hbound)
  · exact hall.imp fun c i hi => get_of_slot (hv.known c i hi)
  · exact fun i c hi hw => unused_behind_wide (hsize ▸ hbound) hi hw

/-- A text with characters of every length, a wide constant asked for twice, and a class whose index
leads nowhere. -/
def sampleRequests : List Constant :=
  [.utf8 "a\x00é😀", .long 7, .class 9, .double 9221120237041090561, .long 7, .float 2143289345,
    .integer (-1), .utf8 "a\x00é😀"]

theorem sampleRequests_answered : ∃ t, sampleRequests.mapM Interning.constant .empty =
    .ok ([1, 2, 4, 5, 2, 7, 8, 1], t) := by
  have fits : (Text.ModifiedUtf8.encode "a\x00é😀").length < 65536 := by decide
  simp [sampleRequests, Interning.constant, Interning.run_bind, Interning.run_map,
    Interning.ok_bind, TableBuilder.intern, TableBuilder.checkLength, TableBuilder.empty,
    Constant.slots, Constant.isWide, Std.HashMap.getElem_insert, fits]

theorem table_of_requests_sample : ∃ t, sampleRequests.mapM Interning.constant .empty =
      .ok ([1, 2, 4, 5, 2, 7, 8, 1], t) ∧
    ∃ T : ConstantTable,
      Reader.Reads ConstantTable.read (BigEndian.encode 2 t.next ++ t.encode) T ∧ T.size = t.next ∧
      List.Forall₂ (fun c i => T.get i = .ok c) sampleRequests [1, 2, 4, 5, 2, 7, 8, 1] ∧
      (∀ p q : Nat, [1, 2, 4, 5, 2, 7, 8, 1][p]? = ([1, 2, 4, 5, 2, 7, 8, 1] : List UInt16)[q]? ↔
        sampleRequests[p]? = sampleRequests[q]?) ∧
      ∀ (i : UInt16) (c : Constant), T.get i = .ok c → c.isWide = true →
        T.slots[i.toNat + 1]? = some none ∧
          T.get (i + 1) = .error (.malformed (.constantIndex (i + 1))) := by
  obtain ⟨t, h⟩ := sampleRequests_answered
  exact ⟨t, h, table_of_requests h⟩

end MarkerIndex.ClassFile
