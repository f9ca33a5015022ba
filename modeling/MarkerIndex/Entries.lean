/-
Ordered dictionaries: named values in the order in which their names were first inserted.

A new name goes to the end; a name that is already there keeps its place and takes the new value.
`Distinct` is the invariant that every operation keeps: no name occurs twice.
-/
namespace MarkerIndex

/-- Named values in order. -/
abbrev Entries (κ β : Type) := List (κ × β)

namespace Entries

variable {κ β : Type} [DecidableEq κ]

def get? : Entries κ β → κ → Option β
  | [], _ => none
  | (k, v) :: rest, key => if k = key then some v else get? rest key

def has (es : Entries κ β) (key : κ) : Bool := (es.get? key).isSome

def keys (es : Entries κ β) : List κ := es.map (·.1)

def values (es : Entries κ β) : List β := es.map (·.2)

/-- No name occurs twice. -/
def Distinct (es : Entries κ β) : Prop := es.keys.Nodup

/-- The value is given to the name, in the place of the old one or at the end. -/
def insert : Entries κ β → κ → β → Entries κ β
  | [], key, value => [(key, value)]
  | (k, v) :: rest, key, value =>
    if k = key then (k, value) :: rest else (k, v) :: insert rest key value

/-- The same insertion, which hands out the value that was replaced. -/
def exchange : Entries κ β → κ → β → Option β × Entries κ β
  | [], key, value => (none, [(key, value)])
  | (k, v) :: rest, key, value =>
    if k = key then (some v, (k, value) :: rest)
    else
      let (old, rest) := exchange rest key value
      (old, (k, v) :: rest)

/-- The value is given to the name unless the name has one. -/
def insertNew (es : Entries κ β) (key : κ) (value : β) : Entries κ β :=
  if es.has key then es else es ++ [(key, value)]

/-- The value of the name is replaced by `f` of it, a missing one standing for `fresh`. -/
def alter (es : Entries κ β) (key : κ) (fresh : β) (f : β → β) : Entries κ β :=
  es.insert key (f ((es.get? key).getD fresh))

/-- The dictionary of a sequence of insertions. -/
def ofList (pairs : List (κ × β)) : Entries κ β :=
  pairs.foldl (fun es (k, v) => es.insert k v) []

/-- The first value given to each name, in the order of the names. -/
def firsts (pairs : List (κ × β)) : Entries κ β :=
  pairs.foldl (fun es (k, v) => es.insertNew k v) []

/-! ## Look-up after each operation -/

theorem has_iff_mem_keys {es : Entries κ β} {key : κ} : es.has key = true ↔ key ∈ es.keys := by
  induction es with
  | nil => simp [has, get?, keys]
  | cons e rest ih =>
    obtain ⟨k, v⟩ := e
    by_cases h : k = key
    · simp [has, get?, keys, h]
    · have h' : ¬ key = k := fun e => h e.symm
      simpa [has, get?, keys, h, h'] using ih

@[simp] theorem get?_insert (es : Entries κ β) (key name : κ) (value : β) :
    (es.insert key value).get? name = if key = name then some value else es.get? name := by
  induction es with
  | nil => rfl
  | cons e rest ih =>
    obtain ⟨k, v⟩ := e
    rw [insert]
    split
    next h => subst h; simp only [get?]; split <;> rfl
    next h =>
      simp only [get?, ih]
      split
      next hk => subst hk; simp [Ne.symm h]
      next => rfl

theorem keys_insert (es : Entries κ β) (key : κ) (value : β) :
    (es.insert key value).keys = if es.has key then es.keys else es.keys ++ [key] := by
  induction es with
  | nil => rfl
  | cons e rest ih =>
    obtain ⟨k, v⟩ := e
    by_cases h : k = key
    · simp [insert, h, keys, has, get?]
    · have hs : has ((k, v) :: rest) key = has rest key := by simp [has, get?, h]
      rw [hs, insert, if_neg h]
      change k :: (insert rest key value).keys = _
      rw [ih]
      split <;> rfl

theorem has_insert (es : Entries κ β) (key name : κ) (value : β) :
    (es.insert key value).has name = (es.has name || decide (name = key)) := by
  rw [has, get?_insert]
  by_cases h : key = name
  · simp [h]
  · simp [h, Ne.symm h, has]

theorem insert_of_not_has {es : Entries κ β} {key : κ} (value : β) (h : es.has key = false) :
    es.insert key value = es ++ [(key, value)] := by
  induction es with
  | nil => rfl
  | cons e es ih =>
    have hne : e.1 ≠ key := fun he => by simp [has, get?, he] at h
    have hes : has es key = false := by simpa [has, get?, hne] using h
    rw [insert, if_neg hne, ih hes]; rfl

theorem exchange_eq (es : Entries κ β) (key : κ) (value : β) :
    es.exchange key value = (es.get? key, es.insert key value) := by
  induction es with
  | nil => rfl
  | cons e rest ih =>
    obtain ⟨k, v⟩ := e
    by_cases h : k = key
    · simp [exchange, get?, insert, h]
    · simp [exchange, get?, insert, h, ih]

theorem get?_append (front back : Entries κ β) (name : κ) :
    get? (front ++ back) name = (front.get? name).or (back.get? name) := by
  induction front with
  | nil => rfl
  | cons e rest ih =>
    obtain ⟨k, v⟩ := e
    simp only [List.cons_append, get?, ih]
    split <;> rfl

@[simp] theorem get?_insertNew (es : Entries κ β) (key name : κ) (value : β) :
    (es.insertNew key value).get? name
      = (es.get? name).or (if key = name then some value else none) := by
  unfold insertNew
  split
  next h =>
    by_cases hn : key = name
    · subst hn
      obtain ⟨v, hv⟩ := Option.isSome_iff_exists.1 h
      simp [hv]
    · simp [hn]
  next => rw [get?_append]; rfl

theorem keys_insertNew (es : Entries κ β) (key : κ) (value : β) :
    (es.insertNew key value).keys = if es.has key then es.keys else es.keys ++ [key] := by
  unfold insertNew
  split <;> simp [keys]

/-- What holds of all values and of a new one holds of all when the new one is inserted. -/
theorem forall_insert {P : β → Prop} {es : Entries κ β} {key : κ} {value : β}
    (h : ∀ e ∈ es, P e.2) (hv : P value) : ∀ e ∈ es.insert key value, P e.2 := by
  induction es with
  | nil => simpa [insert] using hv
  | cons e es ih =>
    rw [List.forall_mem_cons] at h
    rw [insert]
    split
    · exact List.forall_mem_cons.2 ⟨hv, h.2⟩
    · exact List.forall_mem_cons.2 ⟨h.1, ih h.2⟩

/-! ## Distinct names -/

/-- Where no name occurs twice, every entry is found under its name. -/
theorem get?_of_mem {es : Entries κ β} (h : es.Distinct) {e : κ × β} (he : e ∈ es) :
    es.get? e.1 = some e.2 := by
  induction es with
  | nil => cases he
  | cons d es ih =>
    obtain ⟨hd, hes⟩ := List.nodup_cons.1 h
    rcases List.mem_cons.1 he with rfl | he
    · simp [get?]
    · have hne : d.1 ≠ e.1 := fun hk => hd (List.mem_map.2 ⟨e, he, hk.symm⟩)
      rw [get?, if_neg hne, ih hes he]

theorem mem_of_get? {es : Entries κ β} {key : κ} {value : β} (h : es.get? key = some value) :
    (key, value) ∈ es := by
  induction es with
  | nil => cases h
  | cons e es ih =>
    rw [get?] at h
    split at h
    next hk => cases h; subst hk; exact List.mem_cons_self
    next => exact List.mem_cons_of_mem _ (ih h)

/-- Where no name occurs twice, a name is not among those in front of it. -/
theorem not_has_of_distinct {es rest : Entries κ β} {e : κ × β}
    (h : Distinct (es ++ e :: rest)) : es.has e.1 = false := by
  rw [Bool.eq_false_iff]
  intro hhas
  have hmem := has_iff_mem_keys.1 hhas
  unfold Distinct keys at h
  rw [List.map_append] at h
  exact (List.nodup_append.1 h).2.2 e.1 hmem e.1 (by simp) rfl

theorem Distinct.insert {es : Entries κ β} (h : es.Distinct) (key : κ) (value : β) :
    (es.insert key value).Distinct := by
  unfold Distinct at *
  rw [keys_insert]
  split
  next => exact h
  next hs => exact List.nodup_append.2 ⟨h, by simp, by
    intro a ha b hb
    rw [List.mem_singleton] at hb
    subst hb
    exact fun e => hs (has_iff_mem_keys.2 (e ▸ ha))⟩

theorem Distinct.insertNew {es : Entries κ β} (h : es.Distinct) (key : κ) (value : β) :
    (es.insertNew key value).Distinct := by
  have := h.insert key value
  unfold Distinct at *
  rwa [keys_insertNew, ← keys_insert es key value]

theorem distinct_ofList (pairs : List (κ × β)) : (ofList pairs).Distinct := by
  suffices ∀ es : Entries κ β, es.Distinct →
      (pairs.foldl (fun es (k, v) => es.insert k v) es).Distinct from
    this [] List.nodup_nil
  induction pairs with
  | nil => exact fun _ h => h
  | cons e rest ih => exact fun es h => ih _ (h.insert e.1 e.2)

theorem distinct_firsts (pairs : List (κ × β)) : (firsts pairs).Distinct := by
  suffices ∀ es : Entries κ β, es.Distinct →
      (pairs.foldl (fun es (k, v) => es.insertNew k v) es).Distinct from
    this [] List.nodup_nil
  induction pairs with
  | nil => exact fun _ h => h
  | cons e rest ih => exact fun es h => ih _ (h.insertNew e.1 e.2)

end Entries

end MarkerIndex
