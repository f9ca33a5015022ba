/-
Layered dictionaries: an own layer of named values over the layers of a parent.

A name resolves to its value in the nearest layer that has it. `resolved` lists each name that
resolves once, with that value: the own names in their order, then the names of the parent that the
own layer does not have. Resolution, listing, size and emptiness all describe this one list.
-/
import MarkerIndex.Entries

namespace MarkerIndex

/-- An own layer and the layers below it, nearest first. -/
structure Layered (β : Type) where
  own : List (String × β)
  below : List (List (String × β))

namespace Layered

variable {β : Type}

/-- No layer below and no name. -/
def empty : Layered β := ⟨[], []⟩

instance : Inhabited (Layered β) := ⟨empty⟩

/-- All layers, nearest first. -/
def layers (p : Layered β) : List (Entries String β) := p.own :: p.below

/-- The dictionary with the given layers, nearest first; no layer at all is the empty one. -/
def ofLayers : List (Entries String β) → Layered β
  | [] => empty
  | own :: below => ⟨own, below⟩

/-- The dictionary that lookups fall back to. -/
def parent? (p : Layered β) : Option (Layered β) :=
  match p.below with
  | [] => none
  | own :: below => some ⟨own, below⟩

def depth (p : Layered β) : Nat := p.layers.length

/-! ## Resolution -/

/-- The value of a name in the own layer. -/
def getOwn? (p : Layered β) (key : String) : Option β := Entries.get? p.own key

/-- The value of a name in the nearest of some layers that has it. -/
def lookup? : List (Entries String β) → String → Option β
  | [], _ => none
  | layer :: rest, key => (layer.get? key).or (lookup? rest key)

/-- The value that a name resolves to. -/
def get? (p : Layered β) (key : String) : Option β := lookup? p.layers key

/-- The name resolves. -/
def contains (p : Layered β) (key : String) : Bool := (p.get? key).isSome

/-- The entries of a layer over those of another dictionary, which keeps the names of its own. -/
def layerOver (front back : Entries String β) : Entries String β :=
  front ++ back.filter fun entry => !front.has entry.1

/-- The entries that some layers resolve to. -/
def resolveLayers : List (Entries String β) → Entries String β
  | [] => []
  | layer :: rest => layerOver layer (resolveLayers rest)

/-- Every name that resolves, with its value. -/
def resolved (p : Layered β) : Entries String β := resolveLayers p.layers

/-- The names that resolve, in order. -/
def keys (p : Layered β) : List String := p.resolved.keys

def size (p : Layered β) : Nat := p.resolved.length

/-- Every layer is empty. -/
def isEmpty (p : Layered β) : Bool := p.layers.all (·.isEmpty)

/-! ## Derivation -/

/-- An empty layer over `parent`. -/
def withParent (parent : Layered β) : Layered β := ⟨[], parent.layers⟩

/-- The value is given to the name in the own layer. -/
def insert (p : Layered β) (key : String) (value : β) : Layered β :=
  ⟨Entries.insert p.own key value, p.below⟩

/-- The same insertion, which hands out the own value that was replaced. -/
def exchange (p : Layered β) (key : String) (value : β) : Option β × Layered β :=
  let (old, own) := Entries.exchange p.own key value
  (old, ⟨own, p.below⟩)

/-- The own layer alone. -/
def orphan (p : Layered β) : Layered β := ⟨p.own, []⟩

/-- One layer that holds what resolves. -/
def flatten (p : Layered β) : Layered β := ⟨p.resolved, []⟩

/-- What resolves in `p`, as one layer over `parent`. -/
def shadowing (p parent : Layered β) : Layered β := ⟨p.resolved, parent.layers⟩

/-! ## Resolution agrees with listing -/

theorem get?_filter_absent {front back : Entries String β} {name : String}
    (h : front.get? name = none) :
    Entries.get? (back.filter fun entry => !front.has entry.1) name = back.get? name := by
  induction back with
  | nil => rfl
  | cons e rest ih =>
    obtain ⟨k, v⟩ := e
    by_cases hk : k = name
    · subst hk
      simp [Entries.has, h, Entries.get?]
    · by_cases hf : front.has k = true <;> simp [hf, Entries.get?, hk, ih]

@[simp] theorem get?_layerOver (front back : Entries String β) (name : String) :
    (layerOver front back).get? name = (front.get? name).or (back.get? name) := by
  rw [layerOver, Entries.get?_append]
  cases h : front.get? name with
  | some v => rfl
  | none => rw [get?_filter_absent h]

theorem has_layerOver (front back : Entries String β) (name : String) :
    (layerOver front back).has name = (front.has name || back.has name) := by
  rw [Entries.has, get?_layerOver, Option.isSome_or]
  rfl

theorem nil_layerOver (back : Entries String β) : layerOver [] back = back :=
  List.filter_eq_self.2 fun _ _ => rfl

theorem layerOver_nil (front : Entries String β) : layerOver front [] = front :=
  List.append_nil front

theorem get?_resolveLayers (ls : List (Entries String β)) (name : String) :
    (resolveLayers ls).get? name = lookup? ls name := by
  induction ls with
  | nil => rfl
  | cons layer rest ih => rw [resolveLayers, get?_layerOver, ih, lookup?]

@[simp] theorem get?_resolved (p : Layered β) (name : String) :
    p.resolved.get? name = p.get? name := get?_resolveLayers p.layers name

theorem contains_iff_mem_keys {p : Layered β} {name : String} :
    p.contains name = true ↔ name ∈ p.keys := by
  rw [keys, ← Entries.has_iff_mem_keys, Entries.has, get?_resolved, contains]

theorem distinct_layerOver {front back : Entries String β} (hf : front.Distinct)
    (hb : back.Distinct) : (layerOver front back).Distinct := by
  unfold Entries.Distinct Entries.keys layerOver at *
  rw [List.map_append]
  refine List.nodup_append.2 ⟨hf, hb.sublist (List.filter_sublist.map _), ?_⟩
  intro a ha b hb' e
  obtain ⟨entry, he, rfl⟩ := List.mem_map.1 hb'
  have hn := (List.mem_filter.1 he).2
  rw [← e] at hn
  simp [Entries.has_iff_mem_keys.2 ha] at hn

theorem distinct_resolveLayers {ls : List (Entries String β)} (h : ∀ l ∈ ls, l.Distinct) :
    (resolveLayers ls).Distinct := by
  induction ls with
  | nil => exact List.nodup_nil
  | cons layer rest ih =>
    exact distinct_layerOver (h _ (by simp)) (ih fun l hl => h l (by simp [hl]))

/-- A listing of layers without repetitions has none. -/
theorem distinct_resolved {p : Layered β} (h : ∀ l ∈ p.layers, Entries.Distinct l) :
    p.resolved.Distinct := distinct_resolveLayers h

theorem resolveLayers_eq_nil {ls : List (Entries String β)} :
    resolveLayers ls = [] ↔ ∀ l ∈ ls, l = [] := by
  induction ls with
  | nil => simp [resolveLayers]
  | cons layer rest ih =>
    rw [resolveLayers, layerOver, List.append_eq_nil_iff, List.forall_mem_cons]
    refine and_congr_right fun h => ?_
    subst h
    show layerOver [] (resolveLayers rest) = [] ↔ _
    rw [nil_layerOver, ih]

theorem isEmpty_iff_size_eq_zero {p : Layered β} : p.isEmpty = true ↔ p.size = 0 := by
  rw [size, List.length_eq_zero_iff, resolved, resolveLayers_eq_nil]
  simp [isEmpty]

/-! ## Resolution after each operation -/

@[simp] theorem get?_withParent (p : Layered β) (name : String) :
    (withParent p).get? name = p.get? name := rfl

@[simp] theorem get?_insert (p : Layered β) (key name : String) (value : β) :
    (p.insert key value).get? name = if key = name then some value else p.get? name := by
  show (Entries.get? (Entries.insert p.own key value) name).or _ = _
  rw [Entries.get?_insert]
  split <;> rfl

theorem exchange_eq (p : Layered β) (key : String) (value : β) :
    p.exchange key value = (p.getOwn? key, p.insert key value) := by
  rw [exchange, Entries.exchange_eq]
  rfl

@[simp] theorem get?_orphan (p : Layered β) (name : String) :
    p.orphan.get? name = p.getOwn? name := Option.or_none

@[simp] theorem get?_flatten (p : Layered β) (name : String) :
    p.flatten.get? name = p.get? name :=
  Option.or_none.trans (get?_resolved p name)

@[simp] theorem get?_shadowing (p q : Layered β) (name : String) :
    (p.shadowing q).get? name = (p.get? name).or (q.get? name) :=
  congrArg (Option.or · (q.get? name)) (get?_resolved p name)

/-! ## Membership and size -/

theorem mem_resolveLayers {ls : List (Entries String β)} {entry : String × β}
    (h : entry ∈ resolveLayers ls) : ∃ layer ∈ ls, entry ∈ layer := by
  induction ls with
  | nil => simp [resolveLayers] at h
  | cons layer rest ih =>
    rcases List.mem_append.1 h with h | h
    · exact ⟨layer, by simp, h⟩
    · obtain ⟨l, hl, he⟩ := ih (List.mem_filter.1 h).1
      exact ⟨l, by simp [hl], he⟩

/-- A value of a layer is a part of the dictionary. -/
theorem sizeOf_lt_of_mem_layer [SizeOf β] {p : Layered β} {layer : Entries String β}
    (hl : layer ∈ p.layers) {entry : String × β} (he : entry ∈ layer) :
    sizeOf entry.2 < sizeOf p := by
  obtain ⟨own, below⟩ := p
  obtain ⟨key, value⟩ := entry
  have size := List.sizeOf_lt_of_mem he
  simp only [layers, List.mem_cons] at hl
  rcases hl with rfl | hl
  · simp at size ⊢; omega
  · have := List.sizeOf_lt_of_mem hl
    simp at size ⊢; omega

/-- A value that resolves is a part of the dictionary, so recursion into it ends. -/
theorem sizeOf_lt_of_mem [SizeOf β] {p : Layered β} {entry : String × β}
    (h : entry ∈ p.resolved) : sizeOf entry.2 < sizeOf p := by
  obtain ⟨layer, hl, he⟩ := mem_resolveLayers h
  exact sizeOf_lt_of_mem_layer hl he

end Layered

end MarkerIndex
