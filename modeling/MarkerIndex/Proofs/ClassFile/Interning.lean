/-
What interning computations yield. `Yields x P` says that from a valid table `x` comes to a valid
table that only grew at its end, and that its answer satisfies `P` in every table that starts with
the slots then laid out. An index is given out long before the table is complete; because no slot
changes afterwards, it leads to the same constant in the table that is written in the end.
-/
import MarkerIndex.ClassFile.Encode
import MarkerIndex.Proofs.ClassFile.ConstantTable
import Mathlib.Data.List.Forall2

namespace MarkerIndex.ClassFile

open ConstantTable

/-! ## Valid tables -/

namespace TableBuilder

/-- The slots laid out so far. -/
def slots (t : TableBuilder) : List (Option Constant) := none :: layout t.constants.toList

/-- The invariant of tables grown from the empty one. -/
structure Valid (t : TableBuilder) : Prop where
  next : t.next = t.slots.length
  bound : t.next < 65535
  fits : ∀ c ∈ t.constants.toList, c.Fits
  known : ∀ (c : Constant) (i : UInt16), t.known[c]? = some i → t.slots[i.toNat]? = some (some c)

theorem empty_valid : empty.Valid :=
  ⟨rfl, by decide, by simp [empty], fun c i h => by simp [empty] at h⟩

theorem checkLength_fits {c : Constant} (h : checkLength c = .ok ()) : c.Fits := by
  cases c with
  | utf8 s =>
    unfold checkLength at h
    dsimp only at h
    split at h
    next hl => exact hl
    next => cases h
  | _ => trivial

theorem prefix_slot {l l' : List (Option Constant)} (h : l <+: l') {n : Nat} {c : Constant}
    (hn : l[n]? = some (some c)) : l'[n]? = some (some c) := by
  obtain ⟨more, rfl⟩ := h
  rw [List.getElem?_append_left (List.getElem?_eq_some_iff.1 hn).1, hn]

theorem slots_push (t : TableBuilder) (c : Constant) (n : Nat)
    (known : Std.HashMap Constant UInt16) :
    slots ⟨n, t.constants.push c, known⟩ =
      t.slots ++ (if c.isWide then [some c, none] else [some c]) := by
  simp only [slots, Array.toList_push, layout_append, layout_singleton, List.cons_append]

theorem slots_push_length (t : TableBuilder) (c : Constant) (n : Nat)
    (known : Std.HashMap Constant UInt16) :
    (slots ⟨n, t.constants.push c, known⟩).length = t.slots.length + c.slots := by
  rw [slots_push, List.length_append]
  unfold Constant.slots
  split <;> rfl

theorem slots_push_last (t : TableBuilder) (c : Constant) (n : Nat)
    (known : Std.HashMap Constant UInt16) :
    (slots ⟨n, t.constants.push c, known⟩)[t.slots.length]? = some (some c) := by
  rw [slots_push, List.getElem?_append_right (Nat.le_refl _), Nat.sub_self]
  split <;> rfl

/-- A request is answered with the index given out before, or the constant is new, fits behind all
slots, and gets the index that was the next one. -/
theorem intern_cases {t t' : TableBuilder} {c : Constant} {i : UInt16}
    (h : t.intern c = .ok (i, t')) :
    (t.known[c]? = some i ∧ t' = t) ∨
    (t.known[c]? = none ∧ t.next + c.slots < 65535 ∧ c.Fits ∧ i = UInt16.ofNat t.next ∧
      t' = ⟨t.next + c.slots, t.constants.push c, t.known.insert c i⟩) := by
  unfold intern at h
  split at h
  next j hj => cases h; exact .inl ⟨hj, rfl⟩
  next hnew =>
    split at h
    next hroom =>
      cases hl : checkLength c with
      | error e => rw [hl] at h; cases h
      | ok u =>
        rw [hl] at h
        cases h
        exact .inr ⟨hnew, hroom, checkLength_fits hl, rfl, rfl⟩
    next => cases h

/-- Interning keeps the slots laid out so far, and the index it answers with is that of the
constant. -/
theorem intern_spec {t t' : TableBuilder} {c : Constant} {i : UInt16} (hv : t.Valid)
    (h : t.intern c = .ok (i, t')) :
    t'.Valid ∧ t.slots <+: t'.slots ∧ t'.slots[i.toNat]? = some (some c) := by
  obtain ⟨hi, rfl⟩ | ⟨-, hroom, hfits, hi, rfl⟩ := intern_cases h
  · exact ⟨hv, List.prefix_refl _, hv.known c i hi⟩
  · have hnext : i.toNat = t.slots.length := by
      have := hv.bound
      rw [hi, UInt16.toNat_ofNat_of_lt' (by change t.next < 65536; omega), hv.next]
    have hlast := slots_push_last t c (t.next + c.slots) (t.known.insert c i)
    have hpre : t.slots <+: slots ⟨t.next + c.slots, t.constants.push c, t.known.insert c i⟩ := by
      rw [slots_push]; exact List.prefix_append _ _
    refine ⟨⟨?_, hroom, ?_, ?_⟩, hpre, hnext ▸ hlast⟩
    · rw [slots_push_length, hv.next]
    · intro d hd
      simp only [Array.toList_push, List.mem_append, List.mem_singleton] at hd
      rcases hd with hd | rfl
      · exact hv.fits d hd
      · exact hfits
    · intro d j hj
      rw [Std.HashMap.getElem?_insert] at hj
      split at hj
      next hd =>
        cases hj
        cases eq_of_beq hd
        exact hnext ▸ hlast
      next => exact prefix_slot hpre (hv.known d j hj)

end TableBuilder

/-! ## Interning computations -/

namespace Interning

variable {α β : Type}

theorem run_map (f : α → β) (x : Interning α) (t : TableBuilder) :
    (f <$> x) t = x t >>= fun p => .ok (f p.1, p.2) := rfl

theorem ok_bind (a : α) (f : α → Except Fault β) : Except.ok a >>= f = f a := rfl

theorem run_bind (x : Interning α) (f : α → Interning β) (t : TableBuilder) :
    (x >>= f) t = x t >>= fun p => f p.1 p.2 := rfl

theorem bind_ok {x : Interning α} {f : α → Interning β} {t t' : TableBuilder} {b : β}
    (h : (x >>= f) t = .ok (b, t')) : ∃ a u, x t = .ok (a, u) ∧ f a u = .ok (b, t') := by
  rw [run_bind] at h
  cases hx : x t with
  | error e => rw [hx] at h; cases h
  | ok p => rw [hx] at h; exact ⟨p.1, p.2, rfl, h⟩

/-- From a valid table the computation comes to a valid one that starts with the same slots, and
its answer satisfies `P` in every table that starts with the slots it came to. -/
def Yields (x : Interning α) (P : ConstantTable → α → Prop) : Prop :=
  ∀ t a t', t.Valid → x t = .ok (a, t') → t'.Valid ∧ t.slots <+: t'.slots ∧
    ∀ T : ConstantTable, t'.slots <+: T.slots.toList → P T a

theorem yields_pure {P : ConstantTable → α → Prop} {a : α} (h : ∀ T, P T a) :
    Yields (pure a) P := by
  intro t b t' hv ht
  cases ht
  exact ⟨hv, List.prefix_refl _, fun T _ => h T⟩

theorem Yields.imp {x : Interning α} {P Q : ConstantTable → α → Prop} (hx : Yields x P)
    (h : ∀ T a, P T a → Q T a) : Yields x Q := by
  intro t a t' hv ht
  obtain ⟨hv', hp, hT⟩ := hx t a t' hv ht
  exact ⟨hv', hp, fun T hs => h T a (hT T hs)⟩

theorem Yields.and {x : Interning α} {P Q : ConstantTable → α → Prop} (hP : Yields x P)
    (hQ : Yields x Q) : Yields x fun T a => P T a ∧ Q T a := by
  intro t a t' hv ht
  obtain ⟨hv', hp, hT⟩ := hP t a t' hv ht
  obtain ⟨-, -, hT'⟩ := hQ t a t' hv ht
  exact ⟨hv', hp, fun T hs => ⟨hT T hs, hT' T hs⟩⟩

theorem Yields.bind {x : Interning α} {f : α → Interning β} {P : ConstantTable → α → Prop}
    {Q : ConstantTable → β → Prop} (hx : Yields x P)
    (hf : ∀ a, Yields (f a) fun T b => P T a → Q T b) : Yields (x >>= f) Q := by
  intro t b t' hv h
  obtain ⟨a, u, ha, hb⟩ := bind_ok h
  obtain ⟨hu, p1, h1⟩ := hx t a u hv ha
  obtain ⟨ht, p2, h2⟩ := hf a u b t' hu hb
  -- A table that starts with the slots of the end starts with those of the middle.
  exact ⟨ht, p1.trans p2, fun T hT => h2 T hT (h1 T (p2.trans hT))⟩

theorem Yields.map {x : Interning α} {f : α → β} {P : ConstantTable → α → Prop}
    {Q : ConstantTable → β → Prop} (hx : Yields x P) (hf : ∀ T a, P T a → Q T (f a)) :
    Yields (f <$> x) Q := by
  rw [map_eq_pure_bind]
  exact hx.bind fun a => yields_pure fun T => hf T a

theorem yields_refuse {P : ConstantTable → α → Prop} (cause : Refusal) :
    Yields (refuse cause) P := by
  intro t a t' _ h; cases h

theorem yields_mapM {xs : List α} {f : α → Interning β} {P : α → ConstantTable → β → Prop}
    (h : ∀ x ∈ xs, Yields (f x) (P x)) :
    Yields (xs.mapM f) fun T ys => List.Forall₂ (fun x y => P x T y) xs ys := by
  induction xs with
  | nil => exact yields_pure fun T => .nil
  | cons x xs ih =>
    rw [List.mapM_cons]
    refine (h x (by simp)).bind fun y => ?_
    refine (ih fun z hz => h z (by simp [hz])).bind fun ys => ?_
    exact yields_pure fun T hys hy => .cons hy hys

/-! ## What is interned -/

/-- The index of a constant leads to it. -/
theorem yields_constant (c : Constant) : Yields (constant c) fun T i => T.get i = .ok c := by
  intro t i t' hv h
  obtain ⟨ht, hp, hs⟩ := TableBuilder.intern_spec hv h
  exact ⟨ht, hp, fun T hT => get_of_slot (TableBuilder.prefix_slot hT hs)⟩

theorem yields_text (s : String) : Yields (text s) fun T i => T.utf8 i = .ok s :=
  (yields_constant (.utf8 s)).imp fun _ _ => utf8_eq_ok_iff.2

theorem yields_typeName (name : String) :
    Yields (typeName name) fun T i => T.utf8 i = .ok (Descriptor.ofName name) := yields_text _

/-- The index of a class leads to its name when the name has no slash of its own. -/
theorem yields_className {name : String} (h : '/' ∉ name.toList) :
    Yields (className name) fun T i => T.className i = .ok name := by
  refine (yields_text (Descriptor.toInternal name)).bind fun k => ?_
  exact (yields_constant (.class k)).imp fun T i hi hk => className_of_internal h hi hk

/-- A count is written only if it fits, and reads back as itself. -/
theorem yields_count (what : String) (n : Nat) :
    Yields (encodeCount what n) fun _ bs =>
      ∃ k : UInt16, k.toNat = n ∧ Reader.Reads Reader.u16 bs k := by
  unfold encodeCount
  split
  next hn =>
    exact yields_pure fun T => ⟨UInt16.ofNat n, UInt16.toNat_ofNat_of_lt' hn, Reader.reads_count hn⟩
  next => exact yields_refuse _

/-- A count and what is written for each element of a list, put together by `g`. -/
theorem yields_counted {what : String} {n : Nat} {xs : List α} {f : α → Interning Bytes}
    {g : Bytes → List Bytes → Bytes} {P : α → ConstantTable → Bytes → Prop}
    {Q : ConstantTable → Bytes → Prop} (h : ∀ x ∈ xs, Yields (f x) (P x))
    (hQ : ∀ T count bodies, ∀ k : UInt16, k.toNat = n → Reader.Reads Reader.u16 count k →
      List.Forall₂ (fun x bs => P x T bs) xs bodies → Q T (g count bodies)) :
    Yields (do
      let count ← encodeCount what n
      let bodies ← xs.mapM f
      return g count bodies) Q := by
  refine (yields_count what n).bind fun count => (yields_mapM h).bind fun bodies => ?_
  refine yields_pure fun T hbodies hcount => ?_
  obtain ⟨k, hk, hread⟩ := hcount
  exact hQ T count bodies k hk hread hbodies

end Interning

end MarkerIndex.ClassFile
