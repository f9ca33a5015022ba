/-
What a cache keeps. A place that is filled stays filled with the same index until a request empties
it, and all requests for the place up to then are answered with that index. A descriptor that does
not decode leaves no mark: the run goes on as if it had not been asked for. Removing a name empties
its places and no other, and fetching a list of types ahead fills the places of their names that
are empty, in any order with the same indices.

Every change of a cache but a removal is a sequence of asks, and an ask either changes nothing or
stores one index at an empty place under the next serial number; each fact here is carried through
a run by that one step.
-/
import MarkerIndex.Proofs.Index.Caching
import Mathlib.Data.List.Nodup

namespace MarkerIndex

open Host

/-- The place that a request wants one index of. -/
def Request.place? : Request → Option CacheKey
  | .build g id _ o => some (g.name id, o)
  | .decode name _ _ o => some (name, o)
  | .get name o => some (name, o)
  | _ => none

/-! ## Orders -/

/-- Elements that a search takes for the same are found alike in every order. -/
theorem find?_map_of_perm {α β : Type} {p : α → Bool} {f : α → β} {l l' : List α}
    (hperm : l.Perm l') (hf : ∀ a ∈ l, ∀ b ∈ l, p a = true → p b = true → f a = f b) :
    (l.find? p).map f = (l'.find? p).map f := by
  cases ha : l.find? p with
  | none =>
    have hnone : l'.find? p = none :=
      List.find?_eq_none.2 fun b hb => List.find?_eq_none.1 ha b (hperm.mem_iff.2 hb)
    rw [hnone]
  | some a =>
    have hpa : p a = true := List.find?_some ha
    have hmem : a ∈ l := List.mem_of_find?_eq_some ha
    obtain ⟨b, hb⟩ : ∃ b, l'.find? p = some b :=
      Option.isSome_iff_exists.1 (List.find?_isSome.2 ⟨a, hperm.mem_iff.1 hmem, hpa⟩)
    have hmemb : b ∈ l := hperm.mem_iff.2 (List.mem_of_find?_eq_some hb)
    rw [hb, Option.map_some, Option.map_some, hf a hmem b hmemb hpa (List.find?_some hb)]

/-- Dictionaries without repeated names that give every name the same value differ in order only. -/
theorem Entries.perm_of_get? {κ β : Type} [DecidableEq κ] {a b : Entries κ β} (ha : a.Distinct)
    (hb : b.Distinct) (hab : ∀ key, a.get? key = b.get? key) : a.Perm b := by
  refine (List.perm_ext_iff_of_nodup (List.Nodup.of_map _ ha)
    (List.Nodup.of_map _ hb)).2 fun e => ?_
  constructor
  · intro he
    exact mem_of_get? ((hab e.1).symm.trans (get?_of_mem ha he))
  · intro he
    exact mem_of_get? ((hab e.1).trans (get?_of_mem hb he))

/-! ## Keeping -/

namespace Cache

/-- The index that a request is answered with, if it wants one and gets one. -/
def answer? (c : Cache) : Request → Option Stored
  | .build g id h o => some (c.getOrBuild g id h o).1
  | .decode name data target o =>
    match c.getOrDecode name data target o with
    | .ok (s, _) => some s
    | .error _ => none
  | .get name o => c.get? name o
  | _ => none

/-- The cache after some more requests. -/
def run (c : Cache) (rs : List Request) : Cache := rs.foldl serve c

/-- The first index that is found at a place along a run. -/
def firstStored (key : CacheKey) : Cache → List Request → Option Stored
  | c, [] => c.entries.get? key
  | c, r :: rs => (c.entries.get? key).or (firstStored key (c.serve r) rs)

/-- The indices by place, without what tells when they were stored. -/
def contents (c : Cache) : Entries CacheKey Index := c.entries.map fun e => (e.1, e.2.index)

/-- What is kept from a state on, whatever is requested then. -/
structure Keeps (c : Cache) : Prop where
  /-- As long as nothing empties a place, all requests for it that succeed are answered with the
  index that is the first to be stored there. -/
  one : ∀ {key rs front r back s}, (∀ q ∈ rs, q.empties key = false) → rs = front ++ r :: back →
    r.place? = some key → (c.run front).answer? r = some s → firstStored key c rs = some s
  /-- At a place that is empty so far this is the index of the first origin that is asked for and
  gives one; if none does, there is no index. -/
  first : ∀ {key rs}, (∀ q ∈ rs, q.empties key = false) → c.entries.get? key = none →
    Option.Rel (fun s w => w.index key.2 = .ok s.index) (firstStored key c rs)
      (firstMade key (asked rs))
  /-- At a filled place they do succeed. -/
  served : ∀ {key r s}, r.place? = some key → c.entries.get? key = some s → c.answer? r = some s
  /-- An index that is stored after the place was emptied is another one. -/
  renewed : ∀ {key rs s t}, (∃ q ∈ rs, q.empties key = true) → c.entries.get? key = some s →
    (c.run rs).entries.get? key = some t → s.serial < t.serial
  /-- What fails to decode is not stored already, and leaves the cache as it is. -/
  failed : ∀ {name data target o f}, c.getOrDecode name data target o = .error f →
    c.get? name o = none ∧ Index.ofClass data target o = .error f ∧
      ∀ rs, c.run (.decode name data target o :: rs) = c.run rs
  /-- It can be asked for again, with data that does decode. -/
  retried : ∀ {name data data' target target' o f x}, c.getOrDecode name data target o = .error f →
    Index.ofClass data' target' o = .ok x →
    (c.run [.decode name data target o]).answer? (.decode name data' target' o) =
      some ⟨c.nextSerial, x⟩
  /-- Removing a name empties all its places, and keeps what is at the others. -/
  invalidated : ∀ name key, (c.invalidate name).entries.get? key =
    if key.1 = name then none else c.entries.get? key
  /-- Fetching ahead keeps what is stored. -/
  kept : ∀ g ids h o {key s}, c.entries.get? key = some s →
    (c.prefetch g ids h o).entries.get? key = some s
  /-- The empty places that are filled are those of the names in the list, each from the first type
  of its name. -/
  added : ∀ g ids h o {key}, c.entries.get? key = none →
    ((c.prefetch g ids h o).entries.get? key).map (·.index) =
      if key.2 = o then (ids.find? fun id => g.name id = key.1).map fun id => .ofType g id h o
      else none
  /-- Where each name stands for one type, the order of the list does not show in the contents. -/
  unordered : ∀ {g ids ids' h o}, ids.Perm ids' →
    (∀ id ∈ ids, ∀ id' ∈ ids, g.name id = g.name id' →
      Index.ofType g id h o = Index.ofType g id' h o) →
    (c.prefetch g ids h o).contents.Perm (c.prefetch g ids' h o).contents

variable {c d : Cache} {key : CacheKey} {r : Request} {rs : List Request} {s : Stored}

theorem run_append (c : Cache) (front back : List Request) :
    c.run (front ++ back) = (c.run front).run back := List.foldl_append

theorem after_append (front back : List Request) :
    after (front ++ back) = (after front).run back := List.foldl_append

/-! ## Steps -/

theorem get?_store (c : Cache) (place : CacheKey) (x : Index) (key : CacheKey) :
    (c.store place x).2.entries.get? key =
      (c.entries.get? key).or (if place = key then some ⟨c.nextSerial, x⟩ else none) :=
  Entries.get?_append ..

/-- An ask changes nothing, or it stores the index of the origin at a place that is empty. -/
theorem afterAsk_cases (c : Cache) (a : CacheKey × Origin) : c.afterAsk a = c ∨
    c.entries.get? a.1 = none ∧
      ∃ x, a.2.index a.1.2 = .ok x ∧ c.afterAsk a = (c.store a.1 x).2 := by
  unfold afterAsk ask Cache.get?
  split
  next heq =>
    split at heq
    next => cases heq; exact .inl rfl
    next hempty =>
      split at heq
      next x hx => cases heq; exact .inr ⟨hempty, x, hx, rfl⟩
      next => cases heq
  next => exact .inl rfl

/-- What every ask preserves, and the removal if the request is one, the request preserves. -/
theorem serve_preserves {P : Cache → Prop} (h : P c) (ask : ∀ {d} a, P d → P (d.afterAsk a))
    (invalidate : ∀ name, r = .invalidate name → P (c.invalidate name))
    (clear : r = .clear → P c.clear) : P (c.serve r) := by
  have hasks : ∀ (asks : List (CacheKey × Origin)) {d}, P d → P (asks.foldl afterAsk d) := by
    intro asks
    induction asks with
    | nil => exact fun hd => hd
    | cons a asks ih => exact fun hd => ih (ask a hd)
  by_cases hclear : r = .clear
  · subst hclear
    exact clear rfl
  by_cases hinvalidate : ∃ name, r = .invalidate name
  · obtain ⟨name, rfl⟩ := hinvalidate
    exact invalidate name rfl
  · rw [serve_eq_foldl c r hclear fun name hr => hinvalidate ⟨name, hr⟩]
    exact hasks r.asks h

theorem run_preserves {P : Cache → Prop} (h : P c)
    (serve : ∀ {d}, ∀ r ∈ rs, P d → P (d.serve r)) : P (c.run rs) := by
  induction rs generalizing c with
  | nil => exact h
  | cons r rs ih =>
    exact ih (serve r List.mem_cons_self h) fun q hq => serve q (List.mem_cons_of_mem r hq)

/-! ## What stays -/

theorem get?_afterAsk (a : CacheKey × Origin) (h : c.entries.get? key = some s) :
    (c.afterAsk a).entries.get? key = some s := by
  obtain heq | ⟨-, x, -, heq⟩ := afterAsk_cases c a
  · rw [heq, h]
  · rw [heq, get?_store, h, Option.some_or]

/-- A filled place stays as it is unless the request empties it. -/
theorem get?_serve (hr : r.empties key = false) (h : c.entries.get? key = some s) :
    (c.serve r).entries.get? key = some s := by
  refine serve_preserves h (P := fun d => d.entries.get? key = some s) get?_afterAsk ?_ ?_
  · rintro name rfl
    have hname : ¬ key.1 = name := of_decide_eq_false hr
    rw [get?_invalidate, if_neg hname, h]
  · rintro rfl
    cases hr

theorem get?_run (hrs : ∀ q ∈ rs, q.empties key = false) (h : c.entries.get? key = some s) :
    (c.run rs).entries.get? key = some s :=
  run_preserves h (P := fun d => d.entries.get? key = some s) fun r hr => get?_serve (hrs r hr)

/-- As long as nothing empties a place, it ends up with what is first stored there. -/
theorem firstStored_eq_get? (hrs : ∀ q ∈ rs, q.empties key = false) :
    firstStored key c rs = (c.run rs).entries.get? key := by
  induction rs generalizing c with
  | nil => rfl
  | cons r rs ih =>
    rw [firstStored]
    cases hs : c.entries.get? key with
    | none => exact ih fun q hq => hrs q (List.mem_cons_of_mem r hq)
    | some s => exact (get?_run hrs hs).symm

/-! ## What is stored first -/

/-- An empty place was not filled since it was last emptied. -/
theorem filledFrom_eq_none (h : (after rs).entries.get? key = none) : filledFrom key rs = none := by
  have hplace : Option.Rel _ _ (filledFrom key rs) := holds_after rs key
  rw [h] at hplace
  generalize filledFrom key rs = filled at hplace
  cases hplace
  rfl

/-- What a place is filled from, as long as nothing empties it, is the first origin asked for. -/
theorem filledFrom_append (front : List Request) (hrs : ∀ q ∈ rs, q.empties key = false) :
    filledFrom key (front ++ rs) = (filledFrom key front).or (firstMade key (asked rs)) := by
  induction rs using List.reverseRecOn with
  | nil => rw [List.append_nil]; exact Option.or_none.symm
  | append_singleton rs r ih =>
    have hr : r.empties key = false := hrs r (by simp)
    have hasked : asked (rs ++ [r]) = asked rs ++ r.asks := by simp [asked]
    have hlast : filledFrom key (front ++ (rs ++ [r])) =
        (filledFrom key (front ++ rs)).or (firstMade key r.asks) := by
      unfold filledFrom
      rw [← List.append_assoc, List.foldl_concat, if_neg (by rw [hr]; exact Bool.false_ne_true)]
    rw [hlast, ih fun q hq => hrs q (List.mem_append_left _ hq), hasked, firstMade_append,
      Option.or_assoc]

/-! ## Answers -/

theorem get?_of_ask {w : Origin} (h : c.ask key w = .ok (s, d)) : d.entries.get? key = some s := by
  unfold ask at h
  split at h
  next hs => cases h; exact hs
  next hs =>
    split at h
    next x _ =>
      have hempty : c.entries.get? key = none := hs
      cases h
      exact (get?_store c key x key).trans (by rw [hempty, if_pos rfl, Option.none_or])
    next => cases h

/-- What a request is answered with is at its place afterwards. -/
theorem get?_of_answer (hplace : r.place? = some key) (h : c.answer? r = some s) :
    (c.serve r).entries.get? key = some s := by
  cases r with
  | build g id hierarchy o =>
    cases hplace
    cases h
    exact get?_of_ask (ask_live c g id hierarchy o)
  | decode name data target o =>
    cases hplace
    cases hdecode : c.getOrDecode name data target o with
    | error f => simp only [answer?, hdecode, reduceCtorEq] at h
    | ok answer =>
      simp only [answer?, hdecode, Option.some.injEq] at h
      simp only [serve, hdecode, ← h]
      exact get?_of_ask (w := .binary data target) hdecode
  | get name o => cases hplace; exact h
  | _ => cases hplace

theorem answer_of_get? (hplace : r.place? = some key) (h : c.entries.get? key = some s) :
    c.answer? r = some s := by
  cases r with
  | build g id hierarchy o =>
    cases hplace
    simp only [answer?, getOrBuild, Cache.get?, h]
  | decode name data target o =>
    cases hplace
    simp only [answer?, getOrDecode, Cache.get?, h]
  | get name o => cases hplace; exact h
  | _ => cases hplace

theorem getOrDecode_eq_error {name : String} {data : Bytes} {target : Option String} {o : Options}
    {f : Fault} (h : c.getOrDecode name data target o = .error f) :
    c.get? name o = none ∧ Index.ofClass data target o = .error f := by
  unfold getOrDecode at h
  split at h
  next => cases h
  next hempty =>
    split at h
    next => cases h
    next hx => cases h; exact ⟨hempty, hx⟩

/-- A request for a descriptor that fails changes nothing. -/
theorem serve_of_error {name : String} {data : Bytes} {target : Option String} {o : Options}
    {f : Fault} (h : c.getOrDecode name data target o = .error f) :
    c.serve (.decode name data target o) = c := by
  simp only [serve, h]

theorem answer_of_ofClass {name : String} {data : Bytes} {target : Option String} {o : Options}
    {x : Index} (hempty : c.get? name o = none) (h : Index.ofClass data target o = .ok x) :
    c.answer? (.decode name data target o) = some ⟨c.nextSerial, x⟩ := by
  simp only [answer?, getOrDecode, hempty, h, store]

/-! ## Serial numbers -/

/-- No place is filled twice, and every serial number that is taken is below the next one. -/
structure Wf (c : Cache) : Prop where
  distinct : c.entries.Distinct
  fresh : ∀ e ∈ c.entries, e.2.serial < c.nextSerial

theorem Wf.afterAsk (h : c.Wf) (a : CacheKey × Origin) : (c.afterAsk a).Wf := by
  obtain heq | ⟨hempty, x, -, heq⟩ := afterAsk_cases c a
  · rw [heq]; exact h
  · rw [heq]
    constructor
    · have hinsert : c.entries.insertNew a.1 ⟨c.nextSerial, x⟩ = (c.store a.1 x).2.entries := by
        rw [Entries.insertNew, Entries.has, hempty]
        rfl
      rw [← hinsert]
      exact h.distinct.insertNew a.1 _
    · show ∀ e ∈ c.entries ++ [(a.1, ⟨c.nextSerial, x⟩)], e.2.serial < c.nextSerial + 1
      intro e he
      rcases List.mem_append.1 he with he | he
      · exact Nat.lt_succ_of_lt (h.fresh e he)
      · rw [List.mem_singleton.1 he]; exact Nat.lt_succ_self _

theorem Wf.sublist (h : c.Wf) (hsub : d.entries.Sublist c.entries)
    (hnext : d.nextSerial = c.nextSerial) : d.Wf :=
  ⟨h.distinct.sublist (hsub.map _), fun e he => hnext ▸ h.fresh e (hsub.subset he)⟩

theorem Wf.serve (h : c.Wf) (r : Request) : (c.serve r).Wf :=
  serve_preserves h (fun a hd => hd.afterAsk a)
    (fun _ _ => h.sublist List.filter_sublist rfl)
    (fun _ => h.sublist (List.nil_sublist _) rfl)

theorem wf_after (rs : List Request) : (after rs).Wf :=
  run_preserves (P := Wf) ⟨List.nodup_nil, nofun⟩ fun r _ h => h.serve r

/-- What is stored in the later cache was stored in the earlier one, or has a number that was not
taken then. -/
structure Later (c d : Cache) : Prop where
  next : c.nextSerial ≤ d.nextSerial
  entries : ∀ e ∈ d.entries, e ∈ c.entries ∨ c.nextSerial ≤ e.2.serial

theorem Later.refl (c : Cache) : Later c c := ⟨le_rfl, fun _ => .inl⟩

theorem Later.afterAsk (h : Later c d) (a : CacheKey × Origin) : Later c (d.afterAsk a) := by
  obtain heq | ⟨-, x, -, heq⟩ := afterAsk_cases d a
  · rw [heq]; exact h
  · rw [heq]
    refine ⟨Nat.le_succ_of_le h.next, ?_⟩
    show ∀ e ∈ d.entries ++ [(a.1, ⟨d.nextSerial, x⟩)], _
    intro e he
    rcases List.mem_append.1 he with he | he
    · exact h.entries e he
    · rw [List.mem_singleton.1 he]; exact .inr h.next

theorem Later.sublist {d' : Cache} (h : Later c d) (hsub : d'.entries.Sublist d.entries)
    (hnext : d'.nextSerial = d.nextSerial) : Later c d' :=
  ⟨hnext ▸ h.next, fun e he => h.entries e (hsub.subset he)⟩

theorem Later.serve (h : Later c d) (r : Request) : Later c (d.serve r) :=
  serve_preserves h (fun a hd => hd.afterAsk a)
    (fun _ _ => h.sublist List.filter_sublist rfl)
    (fun _ => h.sublist (List.nil_sublist _) rfl)

theorem later_run (c : Cache) (rs : List Request) : Later c (c.run rs) :=
  run_preserves (P := Later c) (.refl c) fun r _ h => h.serve r

theorem get?_serve_of_empties (h : r.empties key = true) :
    (c.serve r).entries.get? key = none := by
  cases r with
  | invalidate name => exact (get?_invalidate c name key).trans (if_pos (of_decide_eq_true h))
  | clear => rfl
  | _ => cases h

/-- What is at a place after it was emptied is not what was there before. -/
theorem serial_lt_of_emptied {t : Stored} (hc : c.Wf) (hrs : ∃ q ∈ rs, q.empties key = true)
    (hs : c.entries.get? key = some s) (ht : (c.run rs).entries.get? key = some t) :
    s.serial < t.serial := by
  obtain ⟨q, hq, hempties⟩ := hrs
  obtain ⟨front, back, rfl⟩ := List.append_of_mem hq
  rw [run_append] at ht
  -- Behind `q` the place is empty, so what is there later has a number that was not taken then.
  have hlater : Later ((c.run front).serve q) (((c.run front).serve q).run back) := later_run _ back
  have hfront : c.nextSerial ≤ ((c.run front).serve q).nextSerial :=
    ((later_run c front).serve q).next
  have hwf : ((c.run front).serve q).Wf :=
    (run_preserves (P := Wf) hc fun r _ h => h.serve r).serve q
  have hcs : s.serial < c.nextSerial := hc.fresh _ (Entries.mem_of_get? hs)
  rcases hlater.entries _ (Entries.mem_of_get? ht) with hmem | hnext
  · have hget := Entries.get?_of_mem hwf.distinct hmem
    rw [get?_serve_of_empties hempties] at hget
    cases hget
  · exact lt_of_lt_of_le hcs (hfront.trans hnext)

/-! ## Fetching ahead -/

section Prefetch

variable {g : TypeGraph} {ids ids' : List TypeId} {h : Hierarchy} {o : Options}

/-- The contents of a place, whenever they were stored. -/
def indexAt (c : Cache) (key : CacheKey) : Option Index := (c.entries.get? key).map (·.index)

theorem indexAt_getOrBuild (c : Cache) (id : TypeId) :
    (c.getOrBuild g id h o).2.indexAt key =
      (c.indexAt key).or (if (g.name id, o) = key then some (.ofType g id h o) else none) := by
  unfold getOrBuild Cache.get? indexAt
  cases hs : c.entries.get? (g.name id, o) with
  | some s =>
    by_cases hk : (g.name id, o) = key
    · rw [← hk, hs]; rfl
    · rw [if_neg hk, Option.or_none]
  | none =>
    dsimp only
    rw [get?_store, Option.map_or]
    split <;> rfl

/-- Each place of the options holds what it held, or else the index of the first type of its
name. -/
theorem indexAt_prefetch (c : Cache) (ids : List TypeId) :
    (c.prefetch g ids h o).indexAt key = (c.indexAt key).or
      (if key.2 = o then (ids.find? fun id => g.name id = key.1).map fun id => .ofType g id h o
        else none) := by
  induction ids generalizing c with
  | nil => simp [prefetch]
  | cons id ids ih =>
    show ((c.getOrBuild g id h o).2.prefetch g ids h o).indexAt key = _
    rw [ih, indexAt_getOrBuild, Option.or_assoc]
    congr 1
    obtain ⟨name, p⟩ := key
    by_cases hp : p = o
    · by_cases hname : g.name id = name
      · simp [hp, hname]
      · simp [hp, hname]
    · have hp' : ¬ o = p := fun e => hp e.symm
      simp [hp, hp']

theorem get?_contents (c : Cache) (key : CacheKey) : c.contents.get? key = c.indexAt key := by
  unfold contents indexAt
  induction c.entries with
  | nil => rfl
  | cons e es ih =>
    rw [List.map_cons, Entries.get?, Entries.get?, ih]
    split <;> rfl

theorem Wf.distinct_contents (h : c.Wf) : c.contents.Distinct := by
  have hkeys : c.contents.keys = c.entries.keys := by simp [contents, Entries.keys]
  unfold Entries.Distinct
  rw [hkeys]
  exact h.distinct

theorem Wf.prefetch (hc : c.Wf) (ids : List TypeId) : (c.prefetch g ids h o).Wf :=
  hc.serve (.prefetch g ids h o)

theorem contents_prefetch_perm (hc : c.Wf) (hperm : ids.Perm ids')
    (hsame : ∀ id ∈ ids, ∀ id' ∈ ids, g.name id = g.name id' →
      Index.ofType g id h o = Index.ofType g id' h o) :
    (c.prefetch g ids h o).contents.Perm (c.prefetch g ids' h o).contents := by
  refine Entries.perm_of_get? (hc.prefetch ids).distinct_contents (hc.prefetch ids').distinct_contents
    fun key => ?_
  rw [get?_contents, get?_contents, indexAt_prefetch, indexAt_prefetch]
  rw [find?_map_of_perm hperm]
  intro id hid id' hid' hname hname'
  exact hsame id hid id' hid' ((of_decide_eq_true hname).trans (of_decide_eq_true hname').symm)

end Prefetch

/-! ## Whole runs -/

/-- After every run the cache keeps what it has. -/
theorem keeps_after (rs : List Request) : (after rs).Keeps where
  one := by
    rintro key rs front r back s hrs rfl hplace hanswer
    rw [firstStored_eq_get? hrs, run_append]
    have hback : ∀ q ∈ back, q.empties key = false := fun q hq =>
      hrs q (List.mem_append_right front (List.mem_cons_of_mem r hq))
    exact get?_run (c := ((after rs).run front).serve r) hback (get?_of_answer hplace hanswer)
  first := by
    intro key back hback hempty
    have hstored : Option.Rel _ _ (filledFrom key (rs ++ back)) := holds_after (rs ++ back) key
    rw [filledFrom_append rs hback, filledFrom_eq_none hempty, Option.none_or] at hstored
    rwa [firstStored_eq_get? hback, ← after_append]
  served := answer_of_get?
  renewed := serial_lt_of_emptied (wf_after rs)
  failed := by
    intro name data target o f h
    obtain ⟨hempty, hclass⟩ := getOrDecode_eq_error h
    refine ⟨hempty, hclass, fun back => ?_⟩
    exact congrArg (run · back) (serve_of_error h)
  retried := by
    intro name data data' target target' o f x h hx
    have hrun : (after rs).run [.decode name data target o] = after rs := serve_of_error h
    rw [hrun]
    exact answer_of_ofClass (getOrDecode_eq_error h).1 hx
  invalidated name key := get?_invalidate _ name key
  kept := by
    intro g ids h o key s hs
    exact get?_serve (r := .prefetch g ids h o) rfl hs
  added := by
    intro g ids h o key hempty
    have hkey : (after rs).indexAt key = none := by rw [indexAt, hempty]; rfl
    show ((after rs).prefetch g ids h o).indexAt key = _
    rw [indexAt_prefetch, hkey, Option.none_or]
  unordered := contents_prefetch_perm (wf_after rs)

/-- Decoding is answered with the index of the type until the name is removed, not with it after
that, and a failure under another name does not show. -/
theorem keeps_after_sharedKey :
    (after (sharedKey.take 1)).answer? (.decode "A" (ClassFile.markedClass 2) none {}) =
        some ⟨0, .ofType typeNamedA 0 .exact {}⟩ ∧
      (∀ t, (after sharedKey).entries.get? ("A", {}) = some t → 0 < t.serial) ∧
      after (.decode "B" [] none {} :: sharedKey) = after sharedKey := by
  have hstored : (after (sharedKey.take 1)).entries.get? ("A", {}) =
      some ⟨0, .ofType typeNamedA 0 .exact {}⟩ := rfl
  refine ⟨(keeps_after _).served rfl hstored, fun t ht => ?_, ?_⟩
  · rw [← List.take_append_drop 1 sharedKey, after_append] at ht
    exact (keeps_after _).renewed ⟨.invalidate "A", by simp [sharedKey], rfl⟩ hstored ht
  · have hfails : (after []).getOrDecode "B" [] none {} = .error .emptyInput := rfl
    exact ((keeps_after []).failed hfails).2.2 sharedKey

end Cache

end MarkerIndex
