/-
What a computation wants from the table of constants. A table never has more than what was asked for
so far: an equal request is answered from the table, so its size is that of the distinct requests,
in whatever order they were made. A computation that asks one after another answers exactly where
all of its own conditions hold and there is room for the distinct requests together with those
before it; otherwise it refuses.

A class constant refers to its name by index, so the requests are told apart by name: that equal
indices mean equal names is the invariant of the table.
-/
import Mathlib.Algebra.Order.BigOperators.Group.Finset
import MarkerIndex.Proofs.ClassFile.Requests

namespace MarkerIndex.ClassFile

open ConstantTable

/-! ## Requests -/

/-- A constant that is asked for; a class by its internal name. -/
inductive Wanted where
  | text (s : String)
  | integer (n : Int32)
  | float (bits : UInt32)
  | long (n : Int64)
  | double (bits : UInt64)
  | «class» (name : String)
  deriving DecidableEq

/-- The slots that the constant occupies. -/
def Wanted.slots : Wanted → Nat
  | .long _ | .double _ => 2
  | _ => 1

/-- There is a table for the constants: every text has at most 65535 bytes, and the distinct
constants and the slot zero take at most 65534 slots. -/
structure RoomFor (ws : List Wanted) : Prop where
  texts : ∀ s, .text s ∈ ws → (Text.ModifiedUtf8.encode s).length ≤ 65535
  slots : 1 + ∑ w ∈ ws.toFinset, w.slots ≤ 65534

theorem RoomFor.mono {us ws : List Wanted} (h : RoomFor ws) (hsub : us ⊆ ws) : RoomFor us := by
  refine ⟨fun s hs => h.texts s (hsub hs), ?_⟩
  have hset : us.toFinset ⊆ ws.toFinset := fun w hw =>
    List.mem_toFinset.2 (hsub (List.mem_toFinset.1 hw))
  have hsum : ∑ w ∈ us.toFinset, w.slots ≤ ∑ w ∈ ws.toFinset, w.slots :=
    Finset.sum_le_sum_of_subset hset
  have := h.slots
  omega

/-! ## The table of the requests -/

namespace TableBuilder

/-- The constant that stands for a request in the table. That of a class needs its name in the
table. -/
def constant? (t : TableBuilder) : Wanted → Option Constant
  | .text s => some (.utf8 s)
  | .integer n => some (.integer n)
  | .float bits => some (.float bits)
  | .long n => some (.long n)
  | .double bits => some (.double bits)
  | .class name => t.known[Constant.utf8 name]?.map .class

/-- The table has the constants that were asked for, each once, and no others. -/
structure Holds (t : TableBuilder) (ws : List Wanted) : Prop where
  valid : t.Valid
  next : t.next = 1 + ∑ w ∈ ws.toFinset, w.slots
  wanted : ∀ (c : Constant) (i : UInt16), t.known[c]? = some i → ∃ w ∈ ws, t.constant? w = some c
  known : ∀ w ∈ ws, ∃ c i, t.constant? w = some c ∧ t.known[c]? = some i

variable {t t' : TableBuilder} {ws us : List Wanted} {v w : Wanted} {c : Constant} {i : UInt16}

theorem empty_holds : empty.Holds [] where
  valid := empty_valid
  next := rfl
  wanted c i h := by simp [empty] at h
  known w h := by cases h

/-- The order of the requests does not matter, nor how often each was made. -/
theorem Holds.congr (h : t.Holds ws) (hws : ∀ w, w ∈ us ↔ w ∈ ws) : t.Holds us where
  valid := h.valid
  next := by
    have hsame : us.toFinset = ws.toFinset := by
      ext w
      simpa using hws w
    rw [hsame, h.next]
  wanted c i hc := by
    obtain ⟨w, hw, hd⟩ := h.wanted c i hc
    exact ⟨w, (hws w).2 hw, hd⟩
  known w hw := h.known w ((hws w).1 hw)

theorem slots_of_constant? (h : t.constant? w = some c) : c.slots = w.slots := by
  cases w with
  | «class» name =>
    obtain ⟨k, -, rfl⟩ := Option.map_eq_some_iff.1 h
    rfl
  | _ =>
    cases h
    rfl

/-- Different requests have different constants. -/
theorem constant?_injective (hvalid : t.Valid) (hv : t.constant? v = some c)
    (hw : t.constant? w = some c) : v = w := by
  cases v <;> cases w
  case class.class name name' =>
    obtain ⟨k, hk, rfl⟩ := Option.map_eq_some_iff.1 hv
    obtain ⟨_, hk', ⟨⟩⟩ := Option.map_eq_some_iff.1 hw
    cases hvalid.index_inj hk hk'
    rfl
  all_goals simpa [constant?] using hv.trans hw.symm

/-- What stands for a request stands for it as long as no index is forgotten. -/
theorem Remembers.constant? (h : t.Remembers t') (hc : t.constant? w = some c) :
    t'.constant? w = some c := by
  cases w with
  | «class» name =>
    obtain ⟨k, hk, rfl⟩ := Option.map_eq_some_iff.1 hc
    exact Option.map_eq_some_iff.2 ⟨k, h _ k hk, rfl⟩
  | _ => exact hc

theorem checkLength_of_fits (h : c.Fits) : checkLength c = .ok () := by
  cases c with
  | utf8 s => exact if_pos h
  | _ => rfl

/-- A constant that does not fit is a text. -/
theorem checkLength_of_not_fits (h : ¬ c.Fits) : ∃ s, c = .utf8 s ∧
    65535 < (Text.ModifiedUtf8.encode s).length ∧
    checkLength c = .error (.refused (.longText s)) := by
  cases c with
  | utf8 s => exact ⟨s, rfl, by simpa [Constant.Fits, Nat.lt_succ_iff] using h, if_neg h⟩
  | _ => exact absurd trivial h

/-- A new constant is refused where there is no room for it, or added behind the others. -/
theorem intern_new (h : t.known[c]? = none) :
    (65535 ≤ t.next + c.slots ∧ t.intern c = .error (.refused .tableOverflow)) ∨
    (∃ s, c = .utf8 s ∧ 65535 < (Text.ModifiedUtf8.encode s).length ∧
      t.intern c = .error (.refused (.longText s))) ∨
    ∃ i t', t.intern c = .ok (i, t') ∧ t'.next = t.next + c.slots ∧
      t'.known = t.known.insert c i := by
  unfold intern
  rw [h]
  dsimp only
  by_cases hroom : t.next + c.slots < 65535
  · rw [if_pos hroom]
    by_cases hfits : c.Fits
    · rw [checkLength_of_fits hfits]
      exact .inr (.inr ⟨_, _, rfl, rfl, rfl⟩)
    · obtain ⟨s, hs, hlong, hrefused⟩ := checkLength_of_not_fits hfits
      rw [hrefused]
      exact .inr (.inl ⟨s, hs, hlong, rfl⟩)
  · rw [if_neg hroom]
    exact .inl ⟨Nat.le_of_not_lt hroom, rfl⟩

/-- The sum grows by the slots of a request that was not made before. -/
theorem sum_slots_snoc (h : w ∉ ws) :
    ∑ v ∈ (ws ++ [w]).toFinset, v.slots = ∑ v ∈ ws.toFinset, v.slots + w.slots := by
  have hset : (ws ++ [w]).toFinset = insert w ws.toFinset := by
    ext v
    simp
  rw [hset, Finset.sum_insert (by simpa using h), Nat.add_comm]

theorem Holds.mem_of_known (h : t.Holds ws) (hc : t.constant? w = some c)
    (hi : t.known[c]? = some i) : w ∈ ws := by
  obtain ⟨v, hv, hvc⟩ := h.wanted c i hi
  obtain rfl := constant?_injective h.valid hvc hc
  exact hv

theorem Holds.not_mem_of_new (h : t.Holds ws) (hc : t.constant? w = some c)
    (hnew : t.known[c]? = none) : w ∉ ws := by
  intro hw
  obtain ⟨d, i, hd, hi⟩ := h.known w hw
  rw [hc] at hd
  cases hd
  rw [hnew] at hi
  cases hi

/-- A table that was grown by a new constant has what it had before, and the new constant. -/
theorem Holds.snoc (h : t.Holds ws) (hc : t.constant? w = some c) (hw : w ∉ ws)
    (hanswer : t.intern c = .ok (i, t')) (hnext : t'.next = t.next + c.slots)
    (hknown : t'.known = t.known.insert c i) : t'.Holds (ws ++ [w]) := by
  obtain ⟨hremembers, hi⟩ := intern_remembers hanswer
  refine ⟨(intern_spec h.valid hanswer).1, ?_, ?_, ?_⟩
  · rw [hnext, h.next, sum_slots_snoc hw, slots_of_constant? hc, Nat.add_assoc]
  · intro d j hd
    by_cases hdc : c = d
    · subst hdc
      exact ⟨w, by simp, hremembers.constant? hc⟩
    · rw [hknown, Std.HashMap.getElem?_insert, if_neg (by simpa using hdc)] at hd
      obtain ⟨v, hv, hvd⟩ := h.wanted d j hd
      exact ⟨v, by simp [hv], hremembers.constant? hvd⟩
  · intro v hv
    rcases List.mem_append.1 hv with hv | hv
    · obtain ⟨d, j, hd, hj⟩ := h.known v hv
      exact ⟨d, j, hremembers.constant? hd, hremembers d j hj⟩
    · obtain rfl := List.mem_singleton.1 hv
      exact ⟨c, i, hremembers.constant? hc, hi⟩

/-- A request is answered, and the table has it too, or there is no room for it. -/
theorem Holds.intern (h : t.Holds ws) (hc : t.constant? w = some c) :
    (∃ i t', t.intern c = .ok (i, t') ∧ t'.Holds (ws ++ [w]) ∧ t'.known[c]? = some i) ∨
    ∃ cause, t.intern c = .error (.refused cause) ∧ ¬ RoomFor (ws ++ [w]) := by
  cases hk : t.known[c]? with
  | some i =>
    have hsame : ∀ u, u ∈ ws ++ [w] ↔ u ∈ ws := by
      intro u
      simp only [List.mem_append, List.mem_singleton, or_iff_left_iff_imp]
      rintro rfl
      exact h.mem_of_known hc hk
    refine .inl ⟨i, t, ?_, h.congr hsame, hk⟩
    unfold TableBuilder.intern
    rw [hk]
  | none =>
    have hw := h.not_mem_of_new hc hk
    obtain ⟨hfull, hrefused⟩ | ⟨s, rfl, hlong, hrefused⟩ | ⟨i, t', hanswer, hnext, hknown⟩ :=
      intern_new hk
    · refine .inr ⟨_, hrefused, fun hroom => ?_⟩
      have hslots := hroom.slots
      rw [sum_slots_snoc hw, ← slots_of_constant? hc, ← Nat.add_assoc, ← h.next] at hslots
      omega
    · refine .inr ⟨_, hrefused, fun hroom => ?_⟩
      have htext : t.constant? (.text s) = some (.utf8 s) := rfl
      obtain rfl := constant?_injective h.valid htext hc
      exact Nat.not_lt.2 (hroom.texts s (by simp)) hlong
    · exact .inl ⟨i, t', hanswer, h.snoc hc hw hanswer hnext hknown, (intern_remembers hanswer).2⟩

/-- A text that has a slot fits. -/
theorem Valid.fits_of_known (h : t.Valid) (hc : t.known[c]? = some i) : c.Fits := by
  have hslot := List.mem_of_getElem? (h.known c i hc)
  have hmem : c ∈ t.slots.filterMap id := List.mem_filterMap.2 ⟨some c, hslot, rfl⟩
  rw [TableBuilder.slots, List.filterMap_cons_none rfl, filterMap_layout] at hmem
  exact h.fits c hmem

/-- A table that has the constants has room for them. -/
theorem Holds.room (h : t.Holds ws) : RoomFor ws where
  texts s hs := by
    obtain ⟨_, i, ⟨⟩, hi⟩ := h.known (.text s) hs
    exact Nat.le_of_lt_succ (h.valid.fits_of_known hi)
  slots := by
    rw [← h.next]
    exact Nat.le_of_lt_succ h.valid.bound

end TableBuilder

/-! ## Computations -/

namespace Interning

open TableBuilder

variable {α β : Type} {x : Interning α} {f : α → Interning β} {ws us : List Wanted} {Q Q' : Prop}
  {R : α → Prop} {R' : β → Prop}

/-- The computation asks for the constants `ws`. Where `Q` holds and there is room for them besides
those that the table has, it gives an answer that satisfies `R`; and otherwise it refuses. -/
def Costs (x : Interning α) (ws : List Wanted) (Q : Prop) (R : α → Prop) : Prop :=
  ∀ (t : TableBuilder) (us : List Wanted), t.Holds us →
    (Q ∧ ∃ a t', x t = .ok (a, t') ∧ t'.Holds (us ++ ws) ∧ R a) ∨
    (¬ (Q ∧ RoomFor (us ++ ws)) ∧ ∃ cause, x t = .error (.refused cause))

theorem Costs.congr (h : Costs x ws Q R) (hws : ∀ w, w ∈ us ↔ w ∈ ws) (hQ : Q' ↔ Q) :
    Costs x us Q' R := by
  intro t vs ht
  have hsame : ∀ w, w ∈ vs ++ us ↔ w ∈ vs ++ ws := fun w => by
    rw [List.mem_append, List.mem_append, hws]
  obtain ⟨q, a, t', hx, ht', ha⟩ | ⟨hnot, cause, hx⟩ := h t vs ht
  · exact .inl ⟨hQ.2 q, a, t', hx, ht'.congr hsame, ha⟩
  · refine .inr ⟨fun ⟨q, hroom⟩ => hnot ⟨hQ.1 q, ?_⟩, cause, hx⟩
    exact hroom.mono fun w hw => (hsame w).2 hw

theorem Costs.imp {R' : α → Prop} (h : Costs x ws Q R) (hR : ∀ a, R a → R' a) :
    Costs x ws Q R' := by
  intro t us ht
  obtain ⟨q, a, t', hx, ht', ha⟩ | hrefused := h t us ht
  · exact .inl ⟨q, a, t', hx, ht', hR a ha⟩
  · exact .inr hrefused

theorem costs_pure {a : α} (ha : R a) : Costs (pure a) [] True R := by
  intro t us ht
  exact .inl ⟨trivial, a, t, rfl, by rwa [List.append_nil], ha⟩

theorem costs_refuse (cause : Refusal) (hQ : ¬ Q) : Costs (refuse cause : Interning α) [] Q R :=
  fun _ _ _ => .inr ⟨fun h => hQ h.1, cause, rfl⟩

theorem Costs.bind (hx : Costs x ws Q R) (hf : ∀ a, R a → Costs (f a) us Q' R') :
    Costs (x >>= f) (ws ++ us) (Q ∧ Q') R' := by
  intro t vs ht
  rw [← List.append_assoc, run_bind]
  obtain ⟨q, a, t', hx, ht', ha⟩ | ⟨hnot, cause, hx⟩ := hx t vs ht
  · rw [hx]
    obtain ⟨q', b, t'', hf, ht'', hb⟩ | ⟨hnot, cause, hf⟩ := hf a ha t' _ ht'
    · exact .inl ⟨⟨q, q'⟩, b, t'', hf, ht'', hb⟩
    · exact .inr ⟨fun h => hnot ⟨h.1.2, h.2⟩, cause, hf⟩
  · rw [hx]
    refine .inr ⟨fun h => hnot ⟨h.1.1, ?_⟩, cause, rfl⟩
    -- Where there is room for all requests there is room for the first of them.
    exact h.2.mono fun w hw => List.mem_append_left us hw

/-- Where the first part has no condition of its own, that of the second part is left. -/
theorem Costs.bind_free (hx : Costs x ws True R) (hf : ∀ a, R a → Costs (f a) us Q' R') :
    Costs (x >>= f) (ws ++ us) Q' R' :=
  (hx.bind hf).congr (fun _ => Iff.rfl) (by simp)

/-- What is put together from an answer costs nothing more. -/
theorem Costs.bind_pure {g : α → β} (hx : Costs x ws Q R) (hg : ∀ a, R a → R' (g a)) :
    Costs (x >>= fun a => pure (g a)) ws Q R' :=
  (hx.bind fun a ha => costs_pure (hg a ha)).congr (by simp) (by simp)

theorem Costs.map {g : α → β} (hx : Costs x ws Q R) (hg : ∀ a, R a → R' (g a)) :
    Costs (g <$> x) ws Q R' := by
  rw [map_eq_pure_bind]
  exact hx.bind_pure hg

/-- The requests for all elements of a list are those for each one. -/
theorem costs_mapM {xs : List α} {ws : α → List Wanted} {Q : α → Prop} {P : α → β → Prop}
    (h : ∀ x ∈ xs, Costs (f x) (ws x) (Q x) (P x)) :
    Costs (xs.mapM f) (xs.flatMap ws) (∀ x ∈ xs, Q x) fun ys => List.Forall₂ P xs ys := by
  induction xs with
  | nil => exact (costs_pure .nil).congr (by simp) (by simp)
  | cons x xs ih =>
    rw [List.mapM_cons]
    have hrest := ih fun y hy => h y (List.mem_cons_of_mem x hy)
    refine ((h x List.mem_cons_self).bind fun y hy =>
      hrest.bind_pure fun ys hys => List.Forall₂.cons hy hys).congr (by simp) ?_
    exact List.forall_mem_cons

/-! ## What is asked for -/

theorem costs_constant {w : Wanted} {c : Constant}
    (h : ∀ t : TableBuilder, t.constant? w = some c) :
    Costs (constant c) [w] True fun _ => True := by
  intro t us ht
  obtain ⟨i, t', hi, ht', -⟩ | ⟨cause, hrefused, hroom⟩ := ht.intern (h t)
  · exact .inl ⟨trivial, i, t', hi, ht', trivial⟩
  · exact .inr ⟨fun hyes => hroom hyes.2, cause, hrefused⟩

theorem costs_text (s : String) : Costs (text s) [.text s] True fun _ => True :=
  costs_constant fun _ => rfl

theorem costs_typeName (name : String) :
    Costs (typeName name) [.text (Descriptor.ofName name)] True fun _ => True :=
  costs_text _

/-- A class asks for its name first. -/
theorem costs_className (name : String) :
    Costs (className name)
      [.text (Descriptor.toInternal name), .class (Descriptor.toInternal name)] True
      fun _ => True := by
  intro t us ht
  have hrun : className name t = t.intern (.utf8 (Descriptor.toInternal name)) >>= fun p =>
      p.2.intern (.class p.1) := rfl
  have hpair : [Wanted.text (Descriptor.toInternal name), .class (Descriptor.toInternal name)] =
      [.text (Descriptor.toInternal name)] ++ [.class (Descriptor.toInternal name)] := rfl
  rw [hrun, hpair, ← List.append_assoc]
  have htext : t.constant? (.text (Descriptor.toInternal name)) =
      some (.utf8 (Descriptor.toInternal name)) := rfl
  obtain ⟨k, t', hk, ht', hknown⟩ | ⟨cause, hrefused, hroom⟩ := ht.intern htext
  · rw [hk]
    have hclass : t'.constant? (.class (Descriptor.toInternal name)) = some (.class k) :=
      Option.map_eq_some_iff.2 ⟨k, hknown, rfl⟩
    obtain ⟨i, t'', hi, ht'', -⟩ | ⟨cause, hrefused, hroom⟩ := ht'.intern hclass
    · exact .inl ⟨trivial, i, t'', hi, ht'', trivial⟩
    · exact .inr ⟨fun h => hroom h.2, cause, hrefused⟩
  · rw [hrefused]
    refine .inr ⟨fun h => hroom ?_, cause, rfl⟩
    exact h.2.mono fun w hw => List.mem_append_left _ hw

/-! ## What is written -/

/-- The computation asks for `ws`, and where `Q` holds and there is room it writes `n` bytes. -/
abbrev Writes (x : Interning Bytes) (ws : List Wanted) (Q : Prop) (n : Nat) : Prop :=
  Costs x ws Q fun bs => bs.length = n

/-- Where two lists agree element by element on what is asked of each, they give the same list. -/
theorem map_eq_of_forall₂ {γ : Type} {g : α → γ} {g' : β → γ} {xs : List α} {ys : List β}
    (h : List.Forall₂ (fun x y => g' y = g x) xs ys) : ys.map g' = xs.map g := by
  induction h with
  | nil => rfl
  | cons hxy _ ih => rw [List.map_cons, List.map_cons, hxy, ih]

theorem writes_count (what : String) (n : Nat) : Writes (encodeCount what n) [] (n ≤ 65535) 2 := by
  unfold encodeCount
  split
  next h =>
    have hpure : Writes (pure (BigEndian.encode 2 n)) [] True 2 :=
      costs_pure (BigEndian.length_encode 2 n)
    exact hpure.congr (fun _ => Iff.rfl) (iff_true_intro (Nat.le_of_lt_succ h))
  next h => exact costs_refuse _ fun hn => h (Nat.lt_succ_of_le hn)

theorem writes_mapM {xs : List α} {f : α → Interning Bytes} {ws : α → List Wanted} {Q : α → Prop}
    {n : α → Nat} (h : ∀ x ∈ xs, Writes (f x) (ws x) (Q x) (n x)) :
    Costs (xs.mapM f) (xs.flatMap ws) (∀ x ∈ xs, Q x) fun ys =>
      ys.flatten.length = (xs.map n).sum := by
  refine (costs_mapM h).imp fun ys hys => ?_
  rw [List.length_flatten, map_eq_of_forall₂ hys]

/-- A count and what is written for each element of a list, put together by `g`. -/
theorem writes_counted {what : String} {m n : Nat} {xs : List α} {f : α → Interning Bytes}
    {g : Bytes → List Bytes → Bytes} {ws : α → List Wanted} {Q : α → Prop} {size : α → Nat}
    (h : ∀ x ∈ xs, Writes (f x) (ws x) (Q x) (size x))
    (hg : ∀ count bodies, (g count bodies).length = m + count.length + bodies.flatten.length) :
    Writes (do
      let count ← encodeCount what n
      let bodies ← xs.mapM f
      return g count bodies) (xs.flatMap ws) (n ≤ 65535 ∧ ∀ x ∈ xs, Q x)
      (m + 2 + (xs.map size).sum) := by
  refine (writes_count what n).bind fun count hcount => ?_
  refine (writes_mapM h).bind_pure fun bodies hbodies => ?_
  rw [hg, hcount, hbodies]

end Interning

end MarkerIndex.ClassFile
