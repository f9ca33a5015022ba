/-
The views of a layered dictionary agree. Look-up asks one layer after the other, listing takes the
own entries and then those of the parent that the own layer lacks, and size and emptiness are read
off the layers in their own ways; in every dictionary that the operations can make they describe the
same entries. The own names stand in the order in which they were first inserted into the layer, so
what is listed is determined by the insertions that made the layer and by the parent.

A dictionary that the operations can make has layers without repetitions. This is the invariant that
the agreement rests on, since a second entry of a name would be listed and never found.
-/
import MarkerIndex.Layered
import Mathlib.Data.List.Basic
import Mathlib.Data.List.Induction

namespace MarkerIndex

/-! ## Insertions in turn -/

namespace Entries

variable {κ β : Type} [DecidableEq κ]

theorem ofList_snoc (pairs : List (κ × β)) (key : κ) (value : β) :
    ofList (pairs ++ [(key, value)]) = (ofList pairs).insert key value := by
  rw [ofList, List.foldl_append]
  rfl

/-- Different names are inserted one behind the other. -/
theorem foldl_insert {es rest : Entries κ β} (h : Distinct (es ++ rest)) :
    rest.foldl (fun es e => es.insert e.1 e.2) es = es ++ rest := by
  induction rest generalizing es with
  | nil => exact (List.append_nil es).symm
  | cons e rest ih =>
    have hnew := insert_of_not_has e.2 (not_has_of_distinct h)
    rw [List.append_cons] at h
    rw [List.foldl_cons, hnew, ih h, ← List.append_cons]

theorem ofList_of_distinct {es : Entries κ β} (h : es.Distinct) : ofList es = es :=
  foldl_insert h

/-- The names stand in the order in which they were first inserted. -/
theorem keys_ofList (pairs : List (κ × β)) :
    (ofList pairs).keys = (pairs.map (·.1)).eraseDups := by
  induction pairs using List.reverseRecOn with
  | nil => rfl
  | append_singleton pairs e ih =>
    obtain ⟨key, value⟩ := e
    rw [ofList_snoc, keys_insert, List.map_append, List.eraseDups_append, ← ih]
    have hmem : key ∈ pairs.map (·.1) ↔ (ofList pairs).has key = true := by
      rw [has_iff_mem_keys, ih, List.mem_eraseDups]
    -- A name that was there before does not occur again.
    by_cases hkey : key ∈ pairs.map (·.1)
    · rw [if_pos (hmem.1 hkey)]
      simp [List.removeAll, List.mem_map.1 hkey]
    · rw [if_neg fun h => hkey (hmem.2 h)]
      have hnew : ∀ value, (key, value) ∉ pairs := fun value h => hkey (List.mem_map_of_mem h)
      simp [List.removeAll, hnew, List.eraseDups_cons]

theorem nodup_eraseDups (names : List κ) : names.eraseDups.Nodup := by
  have h := distinct_ofList (names.map fun name => (name, ()))
  rw [Distinct, keys_ofList, List.map_map] at h
  simpa [Function.comp_def] using h

/-- Each name has the value that was inserted last. -/
theorem get?_ofList (pairs : List (κ × β)) (name : κ) :
    (ofList pairs).get? name = get? pairs.reverse name := by
  induction pairs using List.reverseRecOn with
  | nil => rfl
  | append_singleton pairs e ih =>
    obtain ⟨key, value⟩ := e
    rw [ofList_snoc, get?_insert, ih, List.reverse_append]
    rfl

/-! ### The first value of each name -/

theorem firsts_snoc (pairs : List (κ × β)) (key : κ) (value : β) :
    firsts (pairs ++ [(key, value)]) = (firsts pairs).insertNew key value := by
  rw [firsts, List.foldl_append]
  rfl

/-- Each name has the value that was given to it first. -/
theorem get?_firsts (pairs : List (κ × β)) (name : κ) :
    (firsts pairs).get? name = (pairs.find? fun p => p.1 = name).map (·.2) := by
  induction pairs using List.reverseRecOn with
  | nil => rfl
  | append_singleton pairs e ih =>
    obtain ⟨key, value⟩ := e
    rw [firsts_snoc, get?_insertNew, ih, List.find?_append]
    cases pairs.find? fun p => p.1 = name with
    | none => by_cases h : key = name <;> simp [h]
    | some p => rfl

/-- Which value a name keeps does not matter for the names. -/
theorem keys_firsts (pairs : List (κ × β)) :
    (firsts pairs).keys = (pairs.map (·.1)).eraseDups := by
  rw [← keys_ofList]
  induction pairs using List.reverseRecOn with
  | nil => rfl
  | append_singleton pairs e ih =>
    obtain ⟨key, value⟩ := e
    have hhas : (firsts pairs).has key = (ofList pairs).has key := by
      rw [Bool.eq_iff_iff, has_iff_mem_keys, has_iff_mem_keys, ih]
    rw [firsts_snoc, ofList_snoc, keys_insertNew, keys_insert, hhas, ih]

theorem mem_of_mem_firsts {pairs : List (κ × β)} {e : κ × β} (h : e ∈ firsts pairs) :
    e ∈ pairs := by
  have hfirst := get?_of_mem (distinct_firsts pairs) h
  rw [get?_firsts, Option.map_eq_some_iff] at hfirst
  obtain ⟨p, hp, hvalue⟩ := hfirst
  have hname : p.1 = e.1 := by simpa using List.find?_some hp
  rw [← Prod.ext hname hvalue]
  exact List.mem_of_find?_eq_some hp

/-! ### Names and their values -/

/-- Where no name occurs twice, the entries are what the names are found to have. -/
theorem filterMap_keys {es : Entries κ β} (h : es.Distinct) :
    (es.keys.filterMap fun name => (es.get? name).map fun value => (name, value)) = es := by
  rw [keys, List.filterMap_map]
  refine (List.filterMap_congr fun e he => ?_).trans List.filterMap_some
  rw [Function.comp_apply, get?_of_mem h he]
  rfl

theorem eq_of_keys_eq {a b : Entries κ β} (h : a.Distinct) (hkeys : a.keys = b.keys)
    (hvalues : ∀ name, a.get? name = b.get? name) : a = b := by
  have hb : b.Distinct := by rwa [Distinct, ← hkeys]
  rw [← filterMap_keys h, ← filterMap_keys hb, hkeys, funext hvalues]

end Entries

namespace Layered

variable {β : Type}

/-! ## Entries over entries -/

/-- Of three layers it does not matter which two are put together first. -/
theorem layerOver_assoc (a b c : Entries String β) :
    layerOver (layerOver a b) c = layerOver a (layerOver b c) := by
  have hback : c.filter (fun e => !(layerOver a b).has e.1) =
      (c.filter fun e => !b.has e.1).filter fun e => !a.has e.1 := by
    rw [List.filter_filter]
    refine List.filter_congr fun e _ => ?_
    rw [has_layerOver, Bool.not_or]
  calc layerOver (layerOver a b) c
      = (a ++ b.filter fun e => !a.has e.1) ++ c.filter fun e => !(layerOver a b).has e.1 := rfl
    _ = a ++ (b ++ c.filter fun e => !b.has e.1).filter fun e => !a.has e.1 := by
      rw [hback, List.filter_append, List.append_assoc]

/-- Keeping the first value of each name puts new entries behind the old ones. -/
theorem foldl_insertNew {es layer : Entries String β} (h : layer.Distinct) :
    layer.foldl (fun es e => Entries.insertNew es e.1 e.2) es = layerOver es layer := by
  induction layer generalizing es with
  | nil => exact (layerOver_nil es).symm
  | cons e layer ih =>
    obtain ⟨he, hlayer⟩ := List.nodup_cons.1 h
    rw [List.foldl_cons, ih hlayer, Entries.insertNew]
    split
    next hhas =>
      rw [layerOver, layerOver, List.filter_cons_of_neg (by simpa using hhas)]
    next hnew =>
      have hrest : ∀ d ∈ layer, (!Entries.has (es ++ [e]) d.1) = !es.has d.1 := by
        intro d hd
        have hne : e.1 ≠ d.1 := fun h => he (List.mem_map.2 ⟨d, hd, h.symm⟩)
        simp [Entries.has, Entries.get?_append, Entries.get?, hne]
      rw [layerOver, layerOver, List.filter_cons_of_pos (by simpa using hnew),
        List.filter_congr hrest, ← List.append_cons]

theorem firsts_of_distinct {es : Entries String β} (h : es.Distinct) : Entries.firsts es = es :=
  (foldl_insertNew h).trans (nil_layerOver es)

/-- One pass over all layers that keeps the first value of each name lists what resolves. -/
theorem resolveLayers_eq_firsts {ls : List (Entries String β)} (h : ∀ l ∈ ls, l.Distinct) :
    resolveLayers ls = Entries.firsts ls.flatten := by
  suffices ∀ es : Entries String β,
      ls.flatten.foldl (fun es e => Entries.insertNew es e.1 e.2) es =
        layerOver es (resolveLayers ls) from
    ((this []).trans (nil_layerOver _)).symm
  induction ls with
  | nil => exact fun es => (layerOver_nil es).symm
  | cons layer ls ih =>
    intro es
    obtain ⟨hlayer, hls⟩ := List.forall_mem_cons.1 h
    rw [List.flatten_cons, List.foldl_append, foldl_insertNew hlayer, ih hls, resolveLayers,
      layerOver_assoc]

/-! ## How dictionaries are made -/

/-- A way to make a dictionary. -/
inductive Recipe (β : Type) where
  | empty
  | withParent (parent : Recipe β)
  | insert (base : Recipe β) (key : String) (value : β)
  | orphan (base : Recipe β)
  | flatten (base : Recipe β)
  | shadowing (front back : Recipe β)

namespace Recipe

/-- The dictionary that is made. -/
def make : Recipe β → Layered β
  | empty => .empty
  | withParent parent => parent.make.withParent
  | insert base key value => base.make.insert key value
  | orphan base => base.make.orphan
  | flatten base => base.make.flatten
  | shadowing front back => front.make.shadowing back.make

/-- What was inserted into the own layer, in turn. A layer is copied with its history; a layer that
is made of what resolves has it inserted as it is listed. -/
def inserted : Recipe β → List (String × β)
  | empty | withParent _ => []
  | insert base key value => base.inserted ++ [(key, value)]
  | orphan base => base.inserted
  | flatten base | shadowing base _ => base.make.resolved

/-- The dictionary that the one made falls back to. -/
def parent? : Recipe β → Option (Layered β)
  | empty | orphan _ | flatten _ => none
  | withParent parent => some parent.make
  | insert base _ _ => base.parent?
  | shadowing _ back => some back.make

/-- No layer names an entry twice. -/
theorem distinct_layers (r : Recipe β) : ∀ l ∈ r.make.layers, Entries.Distinct l := by
  have hnil : Entries.Distinct ([] : Entries String β) := List.nodup_nil
  induction r with
  | empty => exact List.forall_mem_singleton.2 hnil
  | withParent _ ih => exact List.forall_mem_cons.2 ⟨hnil, ih⟩
  | insert _ key value ih =>
    obtain ⟨hown, hbelow⟩ := List.forall_mem_cons.1 ih
    exact List.forall_mem_cons.2 ⟨hown.insert key value, hbelow⟩
  | orphan _ ih => exact List.forall_mem_singleton.2 (List.forall_mem_cons.1 ih).1
  | flatten _ ih => exact List.forall_mem_singleton.2 (distinct_resolved ih)
  | shadowing _ _ ihfront ihback =>
    exact List.forall_mem_cons.2 ⟨distinct_resolved ihfront, ihback⟩

/-- The own layer is the dictionary of what was inserted into it. -/
theorem own_make (r : Recipe β) : r.make.own = Entries.ofList r.inserted := by
  induction r with
  | empty | withParent => rfl
  | insert base key value ih =>
    rw [inserted, Entries.ofList_snoc, ← ih]
    rfl
  | orphan _ ih => exact ih
  | flatten base | shadowing base _ =>
    exact (Entries.ofList_of_distinct (distinct_resolved base.distinct_layers)).symm

theorem parent?_make (r : Recipe β) : r.make.parent? = r.parent? := by
  induction r with
  | empty | withParent | orphan | flatten | shadowing => rfl
  | insert _ _ _ ih => exact ih

end Recipe

/-! ## Agreement -/

theorem resolved_eq_own_append (p : Layered β) :
    p.resolved = p.own ++ match p.parent? with
      | none => []
      | some parent => parent.resolved.filter fun e => !Entries.has p.own e.1 := by
  obtain ⟨own, _ | ⟨layer, below⟩⟩ := p <;> rfl

theorem mem_resolved_iff {p : Layered β} (h : ∀ l ∈ p.layers, Entries.Distinct l) {key : String}
    {value : β} : (key, value) ∈ p.resolved ↔ p.get? key = some value := by
  rw [← get?_resolved]
  exact ⟨fun he => Entries.get?_of_mem (distinct_resolved h) he, Entries.mem_of_get?⟩

/-- The names behind the own ones, in order. -/
theorem keys_eq_own_append (p : Layered β) : p.keys = Entries.keys p.own ++
    (Entries.keys (resolveLayers p.below)).filter fun name => !Entries.has p.own name := by
  show (layerOver p.own (resolveLayers p.below)).map (·.1) = _
  rw [layerOver, List.map_append, Entries.keys, Entries.keys, List.filter_map]
  rfl

/-- The views of a dictionary made by `r` agree. -/
structure Agree (r : Recipe β) : Prop where
  once : r.make.keys.Nodup
  listed : ∀ key value, (key, value) ∈ r.make.resolved ↔ r.make.get? key = some value
  contains : ∀ key, r.make.contains key = true ↔ key ∈ r.make.keys
  size : r.make.size = r.make.keys.length
  isEmpty : r.make.isEmpty = true ↔ r.make.size = 0
  /-- Listing is one pass over all layers that keeps the first value of each name. -/
  walked : r.make.resolved = Entries.firsts r.make.layers.flatten
  ownKeys : Entries.keys r.make.own = (r.inserted.map (·.1)).eraseDups
  ownValues : ∀ key, r.make.getOwn? key = Entries.get? r.inserted.reverse key
  parent : r.make.parent? = r.parent?
  ownFirst : r.make.resolved = r.make.own ++ match r.parent? with
    | none => []
    | some parent => parent.resolved.filter fun e => !Entries.has r.make.own e.1

/-- What the insertion of a value under a name makes of `p`: the value that was replaced, and the
dictionary `q`. -/
structure Inserted (p : Layered β) (key : String) (value : β) (old : Option β) (q : Layered β) :
    Prop where
  old : old = p.getOwn? key
  found : q.get? key = some value
  others : ∀ name, name ≠ key → q.get? name = p.get? name
  /-- An own name keeps its place. -/
  kept : p.getOwn? key ≠ none → q.keys = p.keys
  /-- Any other name goes behind the own ones, from its place among the rest if it has one. -/
  moved : p.getOwn? key = none → ∃ rest, p.keys = Entries.keys p.own ++ rest ∧
    q.keys = Entries.keys p.own ++ key :: rest.filter (· ≠ key)

theorem agree (r : Recipe β) : Agree r := by
  have hlayers := r.distinct_layers
  refine ⟨distinct_resolved hlayers, fun _ _ => mem_resolved_iff hlayers,
    fun _ => contains_iff_mem_keys, ?_, isEmpty_iff_size_eq_zero, resolveLayers_eq_firsts hlayers,
    ?_, fun key => ?_, r.parent?_make, ?_⟩
  · rw [size, keys, Entries.keys, List.length_map]
  · rw [r.own_make, Entries.keys_ofList]
  · rw [getOwn?, r.own_make, Entries.get?_ofList]
  · rw [resolved_eq_own_append, r.parent?_make]

theorem inserted_insert (p : Layered β) (key : String) (value : β) :
    Inserted p key value (p.getOwn? key) (p.insert key value) where
  old := rfl
  found := by rw [get?_insert, if_pos rfl]
  others name h := by rw [get?_insert, if_neg (Ne.symm h)]
  kept h := by
    have hown : Entries.has p.own key = true := Option.isSome_iff_ne_none.2 h
    rw [keys_eq_own_append, keys_eq_own_append, insert, Entries.keys_insert, if_pos hown]
    refine congrArg _ (List.filter_congr fun name _ => ?_)
    rw [Entries.has_insert]
    by_cases hname : name = key
    · rw [hname, hown]
      rfl
    · simp [hname]
  moved h := by
    have hown : ¬ Entries.has p.own key = true := by
      rw [Entries.has, Option.isSome_iff_ne_none]
      exact not_not_intro h
    refine ⟨_, keys_eq_own_append p, ?_⟩
    rw [keys_eq_own_append, insert, Entries.keys_insert, if_neg hown, ← List.append_cons,
      List.filter_filter]
    refine congrArg (_ ++ key :: ·) (List.filter_congr fun name _ => ?_)
    rw [Entries.has_insert, Bool.not_or, Bool.and_comm, decide_not]

/-- In every dictionary that the operations can make the views agree, and an insertion into it
changes what resolves under its name alone, hands out the own value that it replaces, and leaves an
own name in its place. -/
theorem views_agree (r : Recipe β) : Agree r ∧ ∀ key value,
    Inserted r.make key value (r.make.exchange key value).1 (r.make.exchange key value).2 := by
  refine ⟨agree r, fun key value => ?_⟩
  rw [exchange_eq]
  exact inserted_insert r.make key value

/-- Names of two layers, of which `b` is in both. -/
example : ((((Recipe.empty.insert "a" 1).insert "b" 2).withParent.insert "b" 20).insert "c" 30
    : Recipe Nat).make.resolved = [("b", 20), ("c", 30), ("a", 1)] := by decide

end Layered

end MarkerIndex
