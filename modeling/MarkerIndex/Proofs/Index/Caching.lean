/-
What a cache answers. A place of the cache, a name with options, is filled by the first request for
it since it was last emptied, and from then on every request for it is answered with that one
index. The key does not say whether the index is of a type or of a class descriptor, nor for which
target the descriptor is read. So, where each name stands for one type and each key for the same
bytes, a request is answered as if nothing were stored exactly when its place was not filled by a
request of the other kind, nor by one for another target with which the bytes read differently.
-/
import MarkerIndex.Index.Cache
import MarkerIndex.Proofs.ClassFile.Declining
import Mathlib.Data.List.Induction

namespace MarkerIndex

open Host

/-! ## Requests -/

/-- What an index is made from. -/
inductive Origin where
  | live (g : TypeGraph) (id : TypeId) (h : Hierarchy)
  | binary (data : Bytes) (target : Option String)

/-- The index made from it. -/
def Origin.index (o : Options) : Origin → Except Fault Index
  | .live g id h => .ok (.ofType g id h o)
  | .binary data target => Index.ofClass data target o

/-- A call of a cache. -/
inductive Request where
  | build (g : TypeGraph) (id : TypeId) (h : Hierarchy) (o : Options)
  | decode (name : String) (data : Bytes) (target : Option String) (o : Options)
  | prefetch (g : TypeGraph) (ids : List TypeId) (h : Hierarchy) (o : Options)
  | get (name : String) (o : Options)
  | invalidate (name : String)
  | clear

namespace Request

/-- The places that are filled where they are empty, in order, and what from. -/
def asks : Request → List (CacheKey × Origin)
  | .build g id h o => [((g.name id, o), .live g id h)]
  | .decode name data target o => [((name, o), .binary data target)]
  | .prefetch g ids h o => ids.map fun id => ((g.name id, o), .live g id h)
  | _ => []

/-- The request empties the place. -/
def empties (key : CacheKey) : Request → Bool
  | .invalidate name => key.1 = name
  | .clear => true
  | _ => false

end Request

/-- All that is asked for in a run. -/
def asked (rs : List Request) : List (CacheKey × Origin) := rs.flatMap (·.asks)

/-- The first origin asked for under a key of which there is an index. -/
def firstMade (key : CacheKey) (asks : List (CacheKey × Origin)) : Option Origin :=
  (asks.find? fun a => a.1 = key && (a.2.index key.2).isOk).map (·.2)

/-- What a place is filled from after a run on an empty cache. -/
def filledFrom (key : CacheKey) (rs : List Request) : Option Origin :=
  rs.foldl (fun filled r =>
    if r.empties key then none else filled.or (firstMade key r.asks)) none

namespace Cache

def serve (c : Cache) : Request → Cache
  | .build g id h o => (c.getOrBuild g id h o).2
  | .decode name data target o =>
    match c.getOrDecode name data target o with
    | .ok (_, c) => c
    | .error _ => c
  | .prefetch g ids h o => c.prefetch g ids h o
  | .get _ _ => c
  | .invalidate name => c.invalidate name
  | .clear => c.clear

/-- The cache after a run. -/
def after (rs : List Request) : Cache := rs.foldl serve {}

/-- What is asked for is answered as if nothing were stored. -/
def AnswersAfresh (c : Cache) : Request → Prop
  | .build g id h o => (c.getOrBuild g id h o).1.index = .ofType g id h o
  | .decode name data target o =>
    (c.getOrDecode name data target o).map (·.1.index) = Index.ofClass data target o
  | _ => True

end Cache

/-- Each name stands for one type with its hierarchy, as far as an index tells, and each key that is
decoded under for the same bytes. -/
structure Steady (rs : List Request) : Prop where
  live : ∀ {name o o' g g' id id' h h'}, ((name, o), .live g id h) ∈ asked rs →
    ((name, o'), .live g' id' h') ∈ asked rs → ∀ p, Index.ofType g id h p = Index.ofType g' id' h' p
  binary : ∀ {name o o' data data' target target'}, ((name, o), .binary data target) ∈ asked rs →
    ((name, o'), .binary data' target') ∈ asked rs → data = data'

/-- Every request of a run is answered as if nothing were stored. -/
def Transparent (rs : List Request) : Prop :=
  ∀ front r, front ++ [r] <+: rs → (Cache.after front).AnswersAfresh r

/-- Behind a run the place of the request is empty, or filled from the same kind of origin and, if
this is a descriptor, for a target with which it reads the same. -/
def Suited (front : List Request) : Request → Prop
  | .build g id _ o =>
    ∀ data target, filledFrom (g.name id, o) front ≠ some (.binary data target)
  | .decode name data target o =>
    ∀ w, filledFrom (name, o) front = some w →
      ∃ data' target', w = .binary data' target' ∧
        Index.ofClass data target' o = Index.ofClass data target o
  | _ => True

/-! ## The origin of an index -/

theorem Index.source_ofType (g : TypeGraph) (id : TypeId) (h : Hierarchy) (o : Options) :
    (ofType g id h o).source = .live := rfl

theorem Index.source_ofClass {data : Bytes} {target : Option String} {o : Options} {x : Index}
    (h : ofClass data target o = .ok x) : x.source ≠ .live := by
  unfold ofClass at h
  cases hr : ClassFile.ClassRecord.ofInput data target o with
  | error f => rw [hr] at h; cases h
  | ok record =>
    rw [hr] at h
    cases h
    rintro ⟨⟩

/-- An index of a descriptor is no index of a type. -/
theorem Index.ofClass_ne_ofType (data : Bytes) (target : Option String) (g : TypeGraph)
    (id : TypeId) (h : Hierarchy) (o : Options) : ofClass data target o ≠ .ok (ofType g id h o) :=
  fun hx => source_ofClass hx (source_ofType g id h o)

/-! ## Asking -/

section Asking

variable {key : CacheKey} {w : Origin} {asks : List (CacheKey × Origin)}

@[simp] theorem firstMade_nil (key : CacheKey) : firstMade key [] = none := rfl

theorem firstMade_append (key : CacheKey) (asks back : List (CacheKey × Origin)) :
    firstMade key (asks ++ back) = (firstMade key asks).or (firstMade key back) := by
  unfold firstMade
  rw [List.find?_append, Option.map_or]

theorem firstMade_cons (a : CacheKey × Origin) :
    firstMade key (a :: asks) = (firstMade key [a]).or (firstMade key asks) :=
  firstMade_append key [a] asks

theorem firstMade_mem (h : firstMade key asks = some w) : (key, w) ∈ asks := by
  unfold firstMade at h
  obtain ⟨⟨k, v⟩, hfind, rfl⟩ := Option.map_eq_some_iff.1 h
  have hkey := List.find?_some hfind
  simp only [Bool.and_eq_true, decide_eq_true_eq] at hkey
  rw [← hkey.1]
  exact List.mem_of_find?_eq_some hfind

/-- A place that was filled was asked for with what it is filled from. -/
theorem filledFrom_mem {rs : List Request} (h : filledFrom key rs = some w) :
    (key, w) ∈ asked rs := by
  unfold filledFrom at h
  induction rs using List.reverseRecOn with
  | nil => cases h
  | append_singleton rs r ih =>
    rw [List.foldl_concat] at h
    unfold asked at ih ⊢
    rw [List.flatMap_append, List.mem_append]
    split at h
    next => cases h
    next =>
      rcases Option.or_eq_some_iff.1 h with h | ⟨-, h⟩
      · exact .inl (ih h)
      · exact .inr (by simpa using firstMade_mem h)

end Asking

namespace Cache

variable {c : Cache} {key : CacheKey}

/-- What is stored under the key, or else the index of an origin, which is then stored. -/
def ask (c : Cache) (key : CacheKey) (w : Origin) : Except Fault (Stored × Cache) :=
  match c.get? key.1 key.2 with
  | some s => .ok (s, c)
  | none =>
    match w.index key.2 with
    | .ok x => .ok (c.store key x)
    | .error f => .error f

theorem ask_live (c : Cache) (g : TypeGraph) (id : TypeId) (h : Hierarchy) (o : Options) :
    c.ask (g.name id, o) (.live g id h) = .ok (c.getOrBuild g id h o) := by
  unfold ask getOrBuild
  cases c.get? (g.name id) o with
  | some s => rfl
  | none => rfl

theorem ask_binary (c : Cache) (name : String) (data : Bytes) (target : Option String)
    (o : Options) : c.ask (name, o) (.binary data target) = c.getOrDecode name data target o := rfl

/-- The cache after asking. -/
def afterAsk (c : Cache) (a : CacheKey × Origin) : Cache :=
  match c.ask a.1 a.2 with
  | .ok (_, c) => c
  | .error _ => c

/-- A request that asks does nothing else. -/
theorem serve_eq_foldl (c : Cache) (r : Request) (h : r ≠ .clear)
    (h' : ∀ name, r ≠ .invalidate name) : c.serve r = r.asks.foldl afterAsk c := by
  cases r with
  | build g id h o => simp [serve, Request.asks, afterAsk, ask_live]
  | decode name data target o => simp only [serve, Request.asks, List.foldl, afterAsk, ask_binary]
  | prefetch g ids h o =>
    simp only [serve, Request.asks, prefetch, List.foldl_map, afterAsk, ask_live]
  | get name o => rfl
  | invalidate name => exact absurd rfl (h' name)
  | clear => exact absurd rfl h

/-! ## What is stored -/

/-- Each place holds the index of what it is filled from. -/
def Holds (c : Cache) (filled : CacheKey → Option Origin) : Prop :=
  ∀ key, Option.Rel (fun s w => w.index key.2 = .ok s.index) (c.entries.get? key) (filled key)

theorem Holds.empty {c : Cache} (h : c.entries = []) : c.Holds fun _ => none := by
  intro key
  rw [h]
  exact .none

theorem Holds.afterAsk {filled : CacheKey → Option Origin} (h : c.Holds filled)
    (a : CacheKey × Origin) :
    (c.afterAsk a).Holds fun key => (filled key).or (firstMade key [a]) := by
  obtain ⟨place, w⟩ := a
  intro key
  have hkey := h key
  have hplace := h place
  unfold Cache.afterAsk ask Cache.get?
  simp only [firstMade, List.find?_singleton]
  generalize hf : filled place = origin at hplace
  generalize hs : c.entries.get? place = stored at hplace
  cases hplace with
  | some hw =>
    -- The place is filled already: nothing changes, and a filled place takes no other origin.
    by_cases hk : place = key
    · subst hk
      rw [hs, hf]
      exact .some hw
    · simpa [hk] using hkey
  | none =>
    cases hw : w.index place.2 with
    | error f =>
      by_cases hk : place = key
      · subst hk
        simpa [hw, Except.isOk, Except.toBool] using hkey
      · simpa [hk] using hkey
    | ok x =>
      simp only [store, Entries.get?_append]
      by_cases hk : place = key
      · subst hk
        simp [hs, hf, Entries.get?, hw, Except.isOk, Except.toBool]
      · simpa [Entries.get?, hk] using hkey

theorem Holds.foldl_afterAsk {filled : CacheKey → Option Origin} (h : c.Holds filled)
    (asks : List (CacheKey × Origin)) :
    (asks.foldl Cache.afterAsk c).Holds fun key => (filled key).or (firstMade key asks) := by
  induction asks generalizing c filled with
  | nil => simpa using h
  | cons a asks ih =>
    have := ih (h.afterAsk a)
    simp only [Option.or_assoc, ← firstMade_cons a] at this
    exact this

theorem get?_invalidate (c : Cache) (name : String) (key : CacheKey) :
    (c.invalidate name).entries.get? key = if key.1 = name then none else c.entries.get? key := by
  show Entries.get? (c.entries.filter _) key = _
  induction c.entries with
  | nil => split <;> rfl
  | cons e rest ih =>
    obtain ⟨place, s⟩ := e
    by_cases hname : place.1 = name
    · rw [List.filter_cons_of_neg (by simpa using hname), ih, Entries.get?]
      by_cases hk : place = key
      · rw [← hk, if_pos hname, if_pos hname]
      · rw [if_neg hk]
    · rw [List.filter_cons_of_pos (by simpa using hname), Entries.get?, Entries.get?, ih]
      by_cases hk : place = key
      · rw [if_pos hk, if_pos hk, ← hk, if_neg hname]
      · rw [if_neg hk, if_neg hk]

/-- One request. -/
theorem Holds.serve {filled : CacheKey → Option Origin} (h : c.Holds filled) (r : Request) :
    (c.serve r).Holds fun key =>
      if r.empties key then none else (filled key).or (firstMade key r.asks) := by
  by_cases hclear : r = .clear
  · subst hclear
    exact Holds.empty rfl
  by_cases hinvalidate : ∃ name, r = .invalidate name
  · obtain ⟨name, rfl⟩ := hinvalidate
    intro key
    show Option.Rel _ ((c.invalidate name).entries.get? key) _
    rw [get?_invalidate]
    by_cases hk : key.1 = name
    · simp [Request.empties, hk]
    · simpa [Request.empties, Request.asks, hk] using h key
  · have hempties : ∀ key, r.empties key = false := by
      intro key
      cases r with
      | invalidate name => exact absurd ⟨name, rfl⟩ hinvalidate
      | clear => exact absurd rfl hclear
      | _ => rfl
    rw [serve_eq_foldl c r hclear fun name hr => hinvalidate ⟨name, hr⟩]
    simpa [hempties] using h.foldl_afterAsk r.asks

/-- A whole run. -/
theorem holds_after (rs : List Request) : (after rs).Holds fun key => filledFrom key rs := by
  induction rs using List.reverseRecOn with
  | nil => exact Holds.empty rfl
  | append_singleton rs r ih =>
    unfold after filledFrom at *
    simp only [List.foldl_concat]
    exact ih.serve r

/-- What is asked for is answered with the index of what its place is filled from, or of itself. -/
theorem ask_after (rs : List Request) (key : CacheKey) (w : Origin) :
    ((after rs).ask key w).map (·.1.index) = ((filledFrom key rs).getD w).index key.2 := by
  have hkey : Option.Rel _ _ (filledFrom key rs) := holds_after rs key
  unfold ask Cache.get?
  generalize filledFrom key rs = filled at hkey
  generalize (after rs).entries.get? key = stored at hkey
  cases hkey with
  | some hw => exact hw.symm
  | none =>
    show Except.map _ (match w.index key.2 with | .ok x => _ | .error f => _) = w.index key.2
    split
    next hw => rw [hw]; rfl
    next hw => rw [hw]; rfl

theorem answersAfresh_build (rs : List Request) (g : TypeGraph) (id : TypeId) (h : Hierarchy)
    (o : Options) : (after rs).AnswersAfresh (.build g id h o) ↔
      ((filledFrom (g.name id, o) rs).getD (.live g id h)).index o = .ok (.ofType g id h o) := by
  rw [← ask_after rs (g.name id, o), ask_live]
  exact (Except.ok.injEq _ _).to_iff.symm

theorem answersAfresh_decode (rs : List Request) (name : String) (data : Bytes)
    (target : Option String) (o : Options) :
    (after rs).AnswersAfresh (.decode name data target o) ↔
      ((filledFrom (name, o) rs).getD (.binary data target)).index o =
        Index.ofClass data target o := by
  rw [← ask_after rs (name, o), ask_binary]
  rfl

end Cache

/-! ## When answers are right -/

section Transparency

variable {rs front : List Request} {r : Request}

theorem asked_of_mem {a : CacheKey × Origin} (h : front ++ [r] <+: rs)
    (ha : a ∈ asked front ∨ a ∈ r.asks) : a ∈ asked rs := by
  obtain ⟨back, rfl⟩ := h
  unfold asked at *
  simp only [List.flatMap_append, List.mem_append, List.flatMap_singleton]
  exact .inl ha

/-- A request is answered as if nothing were stored exactly when what fills its place suits it. -/
theorem answersAfresh_iff (steady : Steady rs) (h : front ++ [r] <+: rs) :
    (Cache.after front).AnswersAfresh r ↔ Suited front r := by
  cases r with
  | build g id hierarchy o =>
    rw [Cache.answersAfresh_build]
    show _ ↔ ∀ data target, filledFrom (g.name id, o) front ≠ some (.binary data target)
    cases hf : filledFrom (g.name id, o) front with
    | none => simp [Origin.index]
    | some w =>
      cases w with
      | live g' id' hierarchy' =>
        have hsame := steady.live (asked_of_mem h (.inl (filledFrom_mem hf)))
          (asked_of_mem h (.inr (List.mem_singleton.2 rfl))) o
        simp [Origin.index, hsame]
      | binary data target =>
        constructor
        · intro hx
          exact absurd hx (Index.ofClass_ne_ofType _ _ _ _ _ _)
        · intro hx
          exact absurd rfl (hx data target)
  | decode name data target o =>
    rw [Cache.answersAfresh_decode]
    show _ ↔ ∀ w, filledFrom (name, o) front = some w → _
    cases hf : filledFrom (name, o) front with
    | none => simp [Origin.index]
    | some w =>
      cases w with
      | live g id hierarchy =>
        constructor
        · intro hx
          exact absurd hx.symm (Index.ofClass_ne_ofType _ _ _ _ _ _)
        · intro hx
          obtain ⟨_, _, hw, -⟩ := hx _ rfl
          cases hw
      | binary data' target' =>
        obtain rfl : data' = data := steady.binary (asked_of_mem h (.inl (filledFrom_mem hf)))
          (asked_of_mem h (.inr (List.mem_singleton.2 rfl)))
        constructor
        · rintro hx _ ⟨⟩
          exact ⟨_, _, rfl, hx⟩
        · intro hx
          obtain ⟨_, _, ⟨⟩, hsame⟩ := hx _ rfl
          exact hsame
  | _ => exact Iff.rfl

/-- A type `A`, and a class descriptor of that name. -/
def typeNamedA : TypeGraph := ⟨#[{ name := "A" }]⟩

/-- The type is built, its descriptor decoded, the name emptied, and the descriptor decoded. -/
def sharedKey : List Request :=
  [.build typeNamedA 0 .exact {}, .decode "A" (ClassFile.markedClass 2) none {}, .invalidate "A",
    .decode "A" (ClassFile.markedClass 2) none {}]

theorem sharedKey_steady : Steady sharedKey := by
  constructor
  · intro name o o' g g' id id' h h' hx hy p
    simp [asked, sharedKey, Request.asks] at hx hy
    rw [hx.2.1, hx.2.2.1, hx.2.2.2, hy.2.1, hy.2.2.1, hy.2.2.2]
  · intro name o o' data data' target target' hx hy
    simp [asked, sharedKey, Request.asks] at hx hy
    rw [hx.2.1, hy.2.1]

/-- The first decoding is answered with the index of the type, the second one is not. -/
theorem answersAfresh_sharedKey :
    ¬ (Cache.after (sharedKey.take 1)).AnswersAfresh
        (.decode "A" (ClassFile.markedClass 2) none {}) ∧
      (Cache.after (sharedKey.take 3)).AnswersAfresh
        (.decode "A" (ClassFile.markedClass 2) none {}) := by
  constructor
  · rw [answersAfresh_iff sharedKey_steady ⟨sharedKey.drop 2, rfl⟩]
    intro hsuited
    obtain ⟨_, _, hw, -⟩ := hsuited (.live typeNamedA 0 .exact) rfl
    cases hw
  · rw [answersAfresh_iff sharedKey_steady ⟨[], rfl⟩]
    rintro w ⟨⟩

/-- A run that decodes under the name of a type that was built is not transparent. -/
theorem not_transparent_sharedKey : ¬ ∀ rs, Steady rs → Transparent rs := by
  intro h
  have hdecode := h sharedKey sharedKey_steady (sharedKey.take 1)
    (.decode "A" (ClassFile.markedClass 2) none {}) ⟨sharedKey.drop 2, rfl⟩
  rw [Cache.answersAfresh_decode] at hdecode
  exact Index.ofClass_ne_ofType _ _ typeNamedA 0 .exact {} hdecode.symm

end Transparency

end MarkerIndex
