/-
Descriptors and names of types as inverses of each other. A descriptor is accepted exactly when it is
spelled as one: brackets before the letter of a primitive type or before a class name, where `void`
has no arrays. The descriptor written for a name stands for this name exactly when the name has no
slashes and is not an array of nothing or of `void`; the name of a descriptor has this descriptor
written for it exactly when it is that of a primitive type, or the class name in it has no points,
does not end in a pair of brackets and is not the name of a primitive type.

A descriptor is split into the brackets in front and the element behind them, a name into the pairs
of brackets at its end and what is in front of them, and either split is unique.
-/
import MarkerIndex.ClassFile.Descriptor
import Mathlib.Data.List.Basic

namespace MarkerIndex.ClassFile.Descriptor

/-! ## Slashes and points -/

section ReplaceChar

variable {a b : Char} {cs : List Char}

theorem notMem_replaceChar (h : a ≠ b) : a ∉ replaceChar a b cs := by
  unfold replaceChar
  rw [List.mem_map]
  rintro ⟨c, -, hc⟩
  split at hc
  next => exact h hc.symm
  next hne => exact hne hc

theorem mem_replaceChar (h : a ∈ cs) : b ∈ replaceChar a b cs :=
  List.mem_map.2 ⟨a, h, if_pos rfl⟩

theorem replaceChar_eq_self (h : a ∉ cs) : replaceChar a b cs = cs := by
  have hchars : ∀ c ∈ cs, (if c = a then b else c) = c := by
    intro c hc
    rw [if_neg]
    rintro rfl
    exact h hc
  rw [replaceChar, List.map_congr_left hchars, List.map_id']

end ReplaceChar

theorem toInternal_ofInternal (s : String) : toInternal (ofInternal s) = toInternal s := by
  unfold toInternal ofInternal replaceChar
  rw [String.toList_ofList, List.map_map]
  congr 1
  apply List.map_congr_left
  intro c _
  by_cases hc : c = '/'
  · simp [hc]
  · simp [hc]

theorem slash_notMem_ofInternal (s : String) : '/' ∉ (ofInternal s).toList := by
  rw [ofInternal, String.toList_ofList]
  exact notMem_replaceChar (by decide)

/-- A name without slashes is found again under its internal name. -/
theorem ofInternal_toInternal {name : String} (h : '/' ∉ name.toList) :
    ofInternal (toInternal name) = name := by
  have hchars : ∀ c ∈ name.toList,
      ((fun c => if c = '/' then '.' else c) ∘ fun c => if c = '.' then '/' else c) c = c := by
    intro c hc
    have hne : c ≠ '/' := by
      rintro rfl
      exact h hc
    by_cases hdot : c = '.'
    · simp [hdot]
    · simp [hdot, hne]
  unfold toInternal ofInternal replaceChar
  rw [String.toList_ofList, List.map_map, List.map_congr_left hchars, List.map_id'',
    String.ofList_toList]
  exact fun _ => rfl

theorem ofInternal_eq_empty {s : String} : ofInternal s = "" ↔ s = "" := by
  simp [ofInternal, replaceChar]

theorem toInternal_eq_empty {s : String} : toInternal s = "" ↔ s = "" := by
  simp [toInternal, replaceChar]

theorem toInternal_eq_self_iff {s : String} : toInternal s = s ↔ '.' ∉ s.toList := by
  constructor
  · intro h
    rw [← h, toInternal, String.toList_ofList]
    exact notMem_replaceChar (by decide)
  · intro h
    rw [toInternal, replaceChar_eq_self h, String.ofList_toList]

/-- A name with neither slashes nor points is that of the internal name which reads the same, and of
no other. -/
theorem ofInternal_eq_iff {s t : String} (hslash : '/' ∉ t.toList) (hpoint : '.' ∉ t.toList) :
    ofInternal s = t ↔ s = t := by
  constructor
  · rintro rfl
    rw [ofInternal, String.toList_ofList] at hpoint
    have hs : '/' ∉ s.toList := fun h => hpoint (mem_replaceChar h)
    rw [ofInternal, replaceChar_eq_self hs, String.ofList_toList]
  · rintro rfl
    rw [ofInternal, replaceChar_eq_self hslash, String.ofList_toList]

/-! ## Brackets in front -/

/-- As many opening brackets as an array has dimensions. -/
def brackets (dimensions : Nat) : String := String.ofList (List.replicate dimensions '[')

theorem toList_brackets_append (n : Nat) (element : String) :
    (brackets n ++ element).toList = List.replicate n '[' ++ element.toList := by
  rw [String.toList_append, brackets, String.toList_ofList]

theorem brackets_zero_append (element : String) : brackets 0 ++ element = element :=
  String.empty_append

theorem brackets_add (m n : Nat) : brackets (m + n) = brackets m ++ brackets n := by
  apply String.toList_inj.1
  rw [toList_brackets_append, brackets, brackets, String.toList_ofList, String.toList_ofList,
    List.replicate_append_replicate]

/-- The text does not start with a bracket. -/
def Bare (element : String) : Prop := element.toList.head? ≠ some '['

/-- The brackets in front of a text are told from the rest of it. -/
theorem brackets_append_inj {m n : Nat} {a b : String} (ha : Bare a) (hb : Bare b)
    (h : brackets m ++ a = brackets n ++ b) : m = n ∧ a = b := by
  have hcs := congrArg String.toList h
  rw [toList_brackets_append, toList_brackets_append] at hcs
  clear h
  induction m generalizing n with
  | zero =>
    cases n with
    | zero => exact ⟨rfl, String.toList_inj.1 hcs⟩
    | succ n => exact absurd (congrArg List.head? hcs) ha
  | succ m ih =>
    cases n with
    | zero => exact absurd (congrArg List.head? hcs).symm hb
    | succ n =>
      obtain ⟨rfl, rfl⟩ := ih (List.tail_eq_of_cons_eq hcs)
      exact ⟨rfl, rfl⟩

theorem exists_bare (text : String) : ∃ n element, Bare element ∧ text = brackets n ++ element := by
  refine ⟨(text.toList.takeWhile (· = '[')).length,
    String.ofList (text.toList.dropWhile (· = '[')), ?_, ?_⟩
  · intro hhead
    rw [String.toList_ofList] at hhead
    have hnot := List.head?_dropWhile_not (fun c => decide (c = '[')) text.toList
    rw [hhead] at hnot
    cases hnot
  · have hrun : text.toList.takeWhile (· = '[') =
        List.replicate (text.toList.takeWhile (· = '[')).length '[' := by
      refine List.eq_replicate_of_mem fun c hc => ?_
      simpa using List.all_eq_true.1 List.all_takeWhile c hc
    apply String.toList_inj.1
    rw [toList_brackets_append, ← hrun, String.toList_ofList, List.takeWhile_append_dropWhile]

/-! ## Pairs of brackets at the end -/

/-- As many pairs of brackets as an array has dimensions. -/
def pairs (dimensions : Nat) : String := String.join (List.replicate dimensions "[]")

theorem toList_pairs (n : Nat) : (pairs n).toList = (List.replicate n ['[', ']']).flatten := by
  unfold pairs
  rw [String.toList_join, List.flatMap_replicate]
  rfl

theorem pairs_zero : pairs 0 = "" := rfl

theorem append_pairs_succ (base : String) (n : Nat) :
    base ++ pairs (n + 1) = base ++ pairs n ++ "[]" := by
  apply String.toList_inj.1
  simp only [String.toList_append, toList_pairs, List.replicate_succ', List.flatten_append,
    List.append_assoc]
  rfl

/-- The name does not end in a pair of brackets. -/
def Unpaired (base : String) : Prop := ¬ ['[', ']'] <:+ base.toList

instance (base : String) : Decidable (Unpaired base) :=
  inferInstanceAs (Decidable (¬ ['[', ']'] <:+ base.toList))

theorem suffix_pair_iff {name : String} :
    ['[', ']'] <:+ name.toList ↔ ∃ front, name = front ++ "[]" := by
  constructor
  · rintro ⟨front, hfront⟩
    refine ⟨String.ofList front, String.toList_inj.1 ?_⟩
    rw [String.toList_append, String.toList_ofList, ← hfront]
    rfl
  · rintro ⟨front, rfl⟩
    rw [String.toList_append]
    exact List.suffix_append _ _

theorem exists_unpaired (name : String) : ∃ base n, Unpaired base ∧ name = base ++ pairs n := by
  -- On the length: a pair is taken from the end as long as there is one.
  generalize hlength : name.toList.length = length
  induction length using Nat.strongRecOn generalizing name with
  | ind length ih =>
    by_cases hpair : ['[', ']'] <:+ name.toList
    · obtain ⟨front, rfl⟩ := suffix_pair_iff.1 hpair
      have hshorter : front.toList.length < length := by
        rw [← hlength, String.toList_append]
        simp
      obtain ⟨base, n, hbase, rfl⟩ := ih _ hshorter front rfl
      exact ⟨base, n + 1, hbase, (append_pairs_succ base n).symm⟩
    · exact ⟨name, 0, hpair, String.append_empty.symm⟩

/-- The pairs at the end of a name are told from the rest of it. -/
theorem append_pairs_inj {a b : String} {m n : Nat} (ha : Unpaired a) (hb : Unpaired b)
    (h : a ++ pairs m = b ++ pairs n) : a = b ∧ m = n := by
  induction m generalizing n with
  | zero =>
    rw [pairs_zero, String.append_empty] at h
    cases n with
    | zero => exact ⟨by rwa [pairs_zero, String.append_empty] at h, rfl⟩
    | succ n => exact absurd (suffix_pair_iff.2 ⟨_, h.trans (append_pairs_succ b n)⟩) ha
  | succ m ih =>
    cases n with
    | zero =>
      rw [pairs_zero, String.append_empty] at h
      exact absurd (suffix_pair_iff.2 ⟨_, h.symm.trans (append_pairs_succ a m)⟩) hb
    | succ n =>
      rw [append_pairs_succ, append_pairs_succ] at h
      have hcs : (a ++ pairs m).toList ++ "[]".toList = (b ++ pairs n).toList ++ "[]".toList := by
        rw [← String.toList_append, ← String.toList_append, h]
      obtain ⟨rfl, rfl⟩ := ih (String.toList_inj.1 (List.append_cancel_right hcs))
      exact ⟨rfl, rfl⟩

/-! ## Elements -/

theorem mem_primitives {base : String} {letter : Char} (h : primitiveLetter? base = some letter) :
    (letter, base) ∈ primitives := by
  unfold primitiveLetter? at h
  obtain ⟨⟨l, name⟩, hfind, rfl⟩ := Option.map_eq_some_iff.1 h
  have hname : name = base := by simpa using List.find?_some hfind
  rw [← hname]
  exact List.mem_of_find?_eq_some hfind

theorem mem_primitives_of_name {base : String} {letter : Char}
    (h : primitiveName? letter = some base) : (letter, base) ∈ primitives := by
  unfold primitiveName? at h
  obtain ⟨⟨l, name⟩, hfind, rfl⟩ := Option.map_eq_some_iff.1 h
  have hletter : l = letter := by simpa using List.find?_some hfind
  rw [← hletter]
  exact List.mem_of_find?_eq_some hfind

/-- The letter of a primitive type stands for it, and its name is no array's and needs no internal
form. -/
theorem primitive_spec : ∀ p ∈ primitives, elementName? [p.1] = some p.2 ∧ p.1 ≠ '[' ∧
    primitiveLetter? p.2 = some p.1 ∧ ¬ ['[', ']'] <:+ p.2.toList ∧ '/' ∉ p.2.toList ∧
    '.' ∉ p.2.toList ∧ p.2 ≠ "" := by decide

theorem primitiveLetter?_eq_none_iff {base : String} :
    primitiveLetter? base = none ↔ base ∉ primitives.map (·.2) := by
  rw [primitiveLetter?, Option.map_eq_none_iff, List.find?_eq_none]
  constructor
  · intro h hmem
    obtain ⟨p, hp, rfl⟩ := List.mem_map.1 hmem
    exact h p hp (decide_eq_true rfl)
  · intro h p hp hname
    exact h (List.mem_map.2 ⟨p, hp, of_decide_eq_true hname⟩)

theorem className?_ok {cs internal : List Char} (h : className? cs = some internal) :
    internal ≠ [] ∧ cs = internal ++ [';'] := by
  unfold className? at h
  split at h
  next hlast =>
    split at h
    next => cases h
    next hlength =>
      cases h
      have hcs := List.dropLast_append_getLast? ';' hlast
      refine ⟨?_, hcs.symm⟩
      intro hnil
      rw [hnil] at hcs
      exact hlength (by rw [← hcs]; rfl)
  next => cases h

theorem className?_append {internal : List Char} (h : internal ≠ []) :
    className? (internal ++ [';']) = some internal := by
  have hlength : (internal ++ [';']).length ≠ 1 := by
    have := List.length_pos_iff.2 h
    simp only [List.length_append, List.length_singleton]
    omega
  unfold className?
  rw [List.getLast?_append]
  simp [h]

/-- The descriptor of a class, by its internal name. -/
def classElement (internal : String) : String := "L" ++ internal ++ ";"

theorem toList_classElement (internal : String) :
    (classElement internal).toList = 'L' :: (internal.toList ++ [';']) := by
  rw [classElement, String.toList_append, String.toList_append]
  rfl

theorem bare_classElement (internal : String) : Bare (classElement internal) := by
  simp [Bare, toList_classElement]

theorem classElement_inj {a b : String} : classElement a = classElement b ↔ a = b := by
  constructor
  · intro h
    have hcs := congrArg String.toList h
    rw [toList_classElement, toList_classElement] at hcs
    exact String.toList_inj.1 (List.append_cancel_right (List.tail_eq_of_cons_eq hcs))
  · rintro rfl
    rfl

/-- A class name has a semicolon behind it, so no letter stands for the class. -/
theorem letter_ne_classElement (letter : Char) (internal : String) :
    letter.toString ≠ classElement internal := by
  intro h
  have hcs := congrArg String.toList h
  rw [toList_classElement] at hcs
  have := congrArg List.length hcs
  simp at this

/-- The text is the descriptor of a type that is no array, and the name is that of the type. -/
inductive Denotes : String → String → Prop
  | primitive {letter : Char} {base : String} (mem : (letter, base) ∈ primitives) :
      Denotes letter.toString base
  | class {internal : String} (ne : internal ≠ "") :
      Denotes (classElement internal) (ofInternal internal)

theorem elementName?_eq_some_iff {element base : String} :
    elementName? element.toList = some base ↔ Denotes element base := by
  constructor
  · intro h
    unfold elementName? at h
    split at h
    next rest hrest =>
      obtain ⟨internal, hinternal, rfl⟩ := Option.map_eq_some_iff.1 h
      obtain ⟨hne, rfl⟩ := className?_ok hinternal
      have helement : element = classElement (String.ofList internal) := by
        apply String.toList_inj.1
        rw [hrest, toList_classElement, String.toList_ofList]
      rw [helement]
      exact .class (by simpa using hne)
    next letter _ hletter =>
      have helement : element = letter.toString := by
        apply String.toList_inj.1
        rw [hletter]
        simp
      rw [helement]
      exact .primitive (mem_primitives_of_name h)
    next => cases h
  · rintro (hmem | hne)
    · simpa using (primitive_spec _ hmem).1
    · rw [toList_classElement, elementName?, className?_append (by simpa using hne),
        Option.map_some, String.ofList_toList]

theorem Denotes.bare {element base : String} (h : Denotes element base) : Bare element := by
  cases h with
  | primitive hmem => simpa [Bare] using (primitive_spec _ hmem).2.1
  | «class» => exact bare_classElement _

/-- A type that is no array has a name without slashes. -/
theorem Denotes.name {element base : String} (h : Denotes element base) :
    base ≠ "" ∧ '/' ∉ base.toList := by
  cases h with
  | primitive hmem =>
    obtain ⟨-, -, -, -, hslash, -, hne⟩ := primitive_spec _ hmem
    exact ⟨hne, hslash⟩
  | «class» hne => exact ⟨fun h => hne (ofInternal_eq_empty.1 h), slash_notMem_ofInternal _⟩

/-! ## Reading -/

theorem toName_append {element : String} (h : Bare element) (n : Nat) :
    toName (brackets n ++ element) = match elementName? element.toList with
      | none => .error (.descriptor (brackets n ++ element))
      | some base =>
        if 0 < n ∧ base = "void" then .error (.voidArray (brackets n ++ element))
        else .ok (base ++ pairs n) := by
  have hrun : ∀ c ∈ List.replicate n '[', decide (c = '[') = true := by
    intro c hc
    rw [List.eq_of_mem_replicate hc]
    rfl
  have htake : element.toList.takeWhile (· = '[') = [] := by
    unfold Bare at h
    cases hcs : element.toList with
    | nil => rfl
    | cons c cs =>
      rw [hcs] at h
      exact List.takeWhile_cons_of_neg fun hc => h (congrArg some (of_decide_eq_true hc))
  have hdrop : element.toList.dropWhile (· = '[') = element.toList := by
    have hwhole := List.takeWhile_append_dropWhile (p := fun c => decide (c = '['))
      (l := element.toList)
    rwa [htake, List.nil_append] at hwhole
  unfold toName
  rw [toList_brackets_append, List.takeWhile_append_of_pos hrun, List.dropWhile_append_of_pos hrun,
    htake, hdrop, List.append_nil]
  simp only [List.length_replicate]
  rfl

/-- A descriptor is accepted when a type that is no array has the element behind its brackets, and
then it names an array of this type; there is no array of `void`. -/
theorem toName_eq_ok_iff {descriptor name : String} :
    toName descriptor = .ok name ↔ ∃ n element base, Denotes element base ∧
      ¬ (0 < n ∧ base = "void") ∧ descriptor = brackets n ++ element ∧ name = base ++ pairs n := by
  constructor
  · intro h
    obtain ⟨n, element, hbare, rfl⟩ := exists_bare descriptor
    rw [toName_append hbare] at h
    split at h
    next => cases h
    next base hbase =>
      split at h
      next => cases h
      next hvoid =>
        cases h
        exact ⟨n, element, base, elementName?_eq_some_iff.1 hbase, hvoid, rfl, rfl⟩
  · rintro ⟨n, element, base, hdenotes, hvoid, rfl, rfl⟩
    rw [toName_append hdenotes.bare, elementName?_eq_some_iff.2 hdenotes]
    exact if_neg hvoid

/-! ## Writing -/

theorem stripPairs_of_plain {cs : List Char} (h : ¬ [']', '['] <+: cs) :
    stripPairs cs = (cs, 0) := by
  unfold stripPairs
  split
  next => exact absurd ⟨_, rfl⟩ h
  next => rfl

theorem stripPairs_append_pairs (base : String) (n : Nat) :
    stripPairs (base ++ pairs n).toList.reverse =
      ((stripPairs base.toList.reverse).1, (stripPairs base.toList.reverse).2 + n) := by
  induction n with
  | zero =>
    rw [pairs_zero, String.append_empty]
    rfl
  | succ n ih =>
    rw [append_pairs_succ, String.toList_append, List.reverse_append]
    show ((stripPairs (base ++ pairs n).toList.reverse).1,
      (stripPairs (base ++ pairs n).toList.reverse).2 + 1) = _
    rw [ih, Nat.add_assoc]

/-- The descriptor of an array starts with a bracket for each pair at the end of the name. -/
theorem ofName_append_pairs (base : String) (n : Nat) :
    ofName (base ++ pairs n) = brackets n ++ ofName base := by
  unfold ofName
  rw [stripPairs_append_pairs]
  show brackets (_ + n) ++ _ = brackets n ++ (brackets _ ++ _)
  rw [Nat.add_comm, brackets_add, String.append_assoc]

/-- The descriptor of the type of a name without pairs at its end. -/
theorem ofName_of_unpaired {base : String} (h : Unpaired base) :
    ofName base = match primitiveLetter? base with
      | some letter => letter.toString
      | none => classElement (toInternal base) := by
  have hreversed : ¬ [']', '['] <+: base.toList.reverse := by
    intro hprefix
    have : ['[', ']'].reverse <+: base.toList.reverse := hprefix
    exact h (List.reverse_prefix.1 this)
  unfold ofName
  rw [stripPairs_of_plain hreversed]
  dsimp only
  rw [List.reverse_reverse, String.ofList_toList]
  exact String.empty_append

theorem ofName_of_primitive {letter : Char} {base : String} (h : (letter, base) ∈ primitives) :
    ofName base = letter.toString := by
  obtain ⟨-, -, hletter, hunpaired, -⟩ := primitive_spec _ h
  rw [ofName_of_unpaired hunpaired, hletter]

theorem bare_ofName {base : String} (h : Unpaired base) : Bare (ofName base) := by
  rw [ofName_of_unpaired h]
  split
  next letter hletter => simpa [Bare] using (primitive_spec _ (mem_primitives hletter)).2.1
  next => exact bare_classElement _

/-- The descriptor that is written for a name without pairs at its end stands for this name, if the
name is not empty and has no slashes. -/
theorem denotes_ofName {base : String} (h : Unpaired base) (hne : base ≠ "")
    (hslash : '/' ∉ base.toList) : Denotes (ofName base) base := by
  rw [ofName_of_unpaired h]
  split
  next letter hletter => exact .primitive (mem_primitives hletter)
  next =>
    have hdenotes : Denotes (classElement (toInternal base)) (ofInternal (toInternal base)) :=
      .class fun hempty => hne (toInternal_eq_empty.1 hempty)
    rwa [ofInternal_toInternal hslash] at hdenotes

/-! ## Back and forth -/

/-- The descriptor that is written for a name stands for this name exactly when the name has no
slashes and is no array of nothing or of `void`. -/
theorem toName_ofName_iff {base : String} (h : Unpaired base) (n : Nat) :
    toName (ofName (base ++ pairs n)) = .ok (base ++ pairs n) ↔
      '/' ∉ base.toList ∧ base ≠ "" ∧ ¬ (0 < n ∧ base = "void") := by
  rw [ofName_append_pairs, toName_eq_ok_iff]
  constructor
  · rintro ⟨m, element, name, hdenotes, hvoid, hdescriptor, hname⟩
    obtain ⟨rfl, rfl⟩ := brackets_append_inj (bare_ofName h) hdenotes.bare hdescriptor
    obtain rfl := (String.append_left_inj _).1 hname
    exact ⟨hdenotes.name.2, hdenotes.name.1, hvoid⟩
  · rintro ⟨hslash, hne, hvoid⟩
    exact ⟨n, ofName base, base, denotes_ofName h hne hslash, hvoid, rfl, rfl⟩

/-- The descriptor that is written for a name is that of a class if the name has no pairs at its end
and is not that of a primitive type. -/
theorem ofName_eq_classElement_iff {name internal : String} :
    ofName name = classElement internal ↔
      Unpaired name ∧ primitiveLetter? name = none ∧ toInternal name = internal := by
  constructor
  · intro h
    obtain ⟨base, n, hbase, rfl⟩ := exists_unpaired name
    -- A pair at the end would leave a bracket in front of the class name.
    rw [ofName_append_pairs, ← brackets_zero_append (classElement internal)] at h
    obtain ⟨rfl, hname⟩ := brackets_append_inj (bare_ofName hbase) (bare_classElement internal) h
    rw [pairs_zero, String.append_empty]
    rw [ofName_of_unpaired hbase] at hname
    split at hname
    next letter _ => exact absurd hname (letter_ne_classElement letter internal)
    next hletter => exact ⟨hbase, hletter, classElement_inj.1 hname⟩
  · rintro ⟨hname, hletter, rfl⟩
    rw [ofName_of_unpaired hname, hletter]

/-- The points of a name change nothing at the end of an internal name. -/
theorem unpaired_ofInternal_iff {internal : String} :
    Unpaired (ofInternal internal) ↔ Unpaired internal := by
  refine not_congr ⟨?_, ?_⟩
  · rintro ⟨front, hfront⟩
    unfold ofInternal replaceChar at hfront
    rw [String.toList_ofList] at hfront
    obtain ⟨front', back, hinternal, -, hback⟩ := List.map_eq_append_iff.1 hfront.symm
    obtain ⟨a, back, rfl, ha, hback⟩ := List.map_eq_cons_iff.1 hback
    obtain ⟨b, back, rfl, hb, hback⟩ := List.map_eq_cons_iff.1 hback
    obtain rfl := List.map_eq_nil_iff.1 hback
    split at ha
    next => cases ha
    split at hb
    next => cases hb
    subst ha hb
    exact ⟨front', hinternal.symm⟩
  · intro hsuffix
    unfold ofInternal
    rw [String.toList_ofList]
    exact hsuffix.map fun c => if c = '/' then '.' else c

theorem notMem_primitives_ofInternal_iff {internal : String} :
    ofInternal internal ∉ primitives.map (·.2) ↔ internal ∉ primitives.map (·.2) := by
  rw [not_iff_not, List.mem_map, List.mem_map]
  refine exists_congr fun p => and_congr_right fun hp => ?_
  obtain ⟨-, -, -, -, hslash, hpoint, -⟩ := primitive_spec p hp
  rw [eq_comm, ofInternal_eq_iff hslash hpoint, eq_comm]

/-- An internal name that its name gives back. -/
structure Faithful (internal : String) : Prop where
  points : '.' ∉ internal.toList
  unpaired : Unpaired internal
  keyword : internal ∉ primitives.map (·.2)

theorem ofName_ofInternal_iff {internal : String} :
    ofName (ofInternal internal) = classElement internal ↔ Faithful internal := by
  rw [ofName_eq_classElement_iff, unpaired_ofInternal_iff, primitiveLetter?_eq_none_iff,
    notMem_primitives_ofInternal_iff, toInternal_ofInternal, toInternal_eq_self_iff]
  exact ⟨fun ⟨unpaired, keyword, points⟩ => ⟨points, unpaired, keyword⟩,
    fun ⟨points, unpaired, keyword⟩ => ⟨unpaired, keyword, points⟩⟩

/-! ## Canonical forms -/

/-- The texts that are spelled as descriptors of types. -/
inductive Spelled : String → Prop
  | primitive (dimensions : Nat) {letter : Char}
      (mem : letter ∈ ['B', 'C', 'D', 'F', 'I', 'J', 'S', 'Z']) :
      Spelled (brackets dimensions ++ letter.toString)
  | class (dimensions : Nat) {internal : String} (ne : internal ≠ "")
      (void : ¬ (0 < dimensions ∧ internal = "void")) :
      Spelled (brackets dimensions ++ classElement internal)
  | void : Spelled "V"

/-- The letters of the primitive types other than `void`. -/
theorem letters_eq : (primitives.filter fun p => p.2 ≠ "void").map (·.1) =
    ['B', 'C', 'D', 'F', 'I', 'J', 'S', 'Z'] := by decide

theorem mem_letters_iff {letter : Char} : letter ∈ ['B', 'C', 'D', 'F', 'I', 'J', 'S', 'Z'] ↔
    ∃ base, (letter, base) ∈ primitives ∧ base ≠ "void" := by
  rw [← letters_eq, List.mem_map]
  constructor
  · rintro ⟨p, hp, rfl⟩
    obtain ⟨hmem, hvoid⟩ := List.mem_filter.1 hp
    exact ⟨p.2, hmem, of_decide_eq_true hvoid⟩
  · rintro ⟨base, hmem, hvoid⟩
    exact ⟨(letter, base), List.mem_filter.2 ⟨hmem, decide_eq_true hvoid⟩, rfl⟩

theorem letter_of_void {letter : Char} (h : (letter, "void") ∈ primitives) : letter = 'V' := by
  have hletter : some 'V' = some letter := (primitive_spec _ h).2.2.1
  exact (Option.some.inj hletter).symm

theorem ofInternal_eq_void_iff {internal : String} :
    ofInternal internal = "void" ↔ internal = "void" :=
  ofInternal_eq_iff (by decide) (by decide)

theorem accepted_iff_spelled {descriptor : String} :
    (∃ name, toName descriptor = .ok name) ↔ Spelled descriptor := by
  simp only [toName_eq_ok_iff]
  constructor
  · rintro ⟨_, n, element, base, hdenotes, hvoid, rfl, -⟩
    cases hdenotes with
    | primitive hmem =>
      by_cases hbase : base = "void"
      · subst hbase
        obtain rfl := letter_of_void hmem
        obtain rfl : n = 0 := by simpa using hvoid
        exact .void
      · exact .primitive n (mem_letters_iff.2 ⟨base, hmem, hbase⟩)
    | «class» hne => exact .class n hne (by rwa [ofInternal_eq_void_iff] at hvoid)
  · rintro (⟨n, hletter⟩ | ⟨n, hne, hvoid⟩ | _)
    · obtain ⟨base, hmem, hbase⟩ := mem_letters_iff.1 hletter
      exact ⟨_, n, _, base, .primitive hmem, fun h => hbase h.2, rfl, rfl⟩
    · rw [← ofInternal_eq_void_iff] at hvoid
      exact ⟨_, n, _, _, .class hne, hvoid, rfl, rfl⟩
    · have hmem : ('V', "void") ∈ primitives := by decide
      exact ⟨_, 0, _, "void", .primitive hmem, by simp, rfl, rfl⟩

theorem toName_voidArray {n : Nat} (h : 0 < n) : toName (brackets n ++ classElement "void") =
    .error (.voidArray (brackets n ++ classElement "void")) := by
  have hdenotes : Denotes (classElement "void") (ofInternal "void") := .class (by decide)
  rw [toName_append hdenotes.bare, elementName?_eq_some_iff.2 hdenotes]
  exact if_pos ⟨h, ofInternal_eq_void_iff.2 rfl⟩

/-- The descriptor that is written for the name of a descriptor is the same one exactly when it is
that of a primitive type or of an array of one, or the class name in it is given back. -/
theorem ofName_toName_iff {descriptor name : String} (h : toName descriptor = .ok name) :
    ofName name = descriptor ↔
      (∃ n, ∃ p ∈ primitives, descriptor = brackets n ++ p.1.toString) ∨
      ∃ n internal, Faithful internal ∧ descriptor = brackets n ++ classElement internal := by
  obtain ⟨n, element, base, hdenotes, -, rfl, rfl⟩ := toName_eq_ok_iff.1 h
  rw [ofName_append_pairs]
  cases hdenotes with
  | primitive hmem =>
    rw [ofName_of_primitive hmem]
    exact iff_of_true rfl (.inl ⟨n, _, hmem, rfl⟩)
  | @«class» internal hne =>
    rw [String.append_right_inj, ofName_ofInternal_iff]
    constructor
    · exact fun hfaithful => .inr ⟨n, internal, hfaithful, rfl⟩
    · rintro (⟨m, p, hp, hdescriptor⟩ | ⟨m, other, hfaithful, hdescriptor⟩)
      · have hletter := (brackets_append_inj (bare_classElement _) (Denotes.primitive hp).bare
          hdescriptor).2
        exact absurd hletter.symm (letter_ne_classElement _ _)
      · have hother := (brackets_append_inj (bare_classElement _) (bare_classElement _)
          hdescriptor).2
        rwa [classElement_inj.1 hother]

/-- Descriptors and names of types are inverse on their canonical forms: what is accepted is what is
spelled as a descriptor, and on either side exactly the canonical forms come back. -/
theorem canonical_inverse :
    (∀ descriptor, (∃ name, toName descriptor = .ok name) ↔ Spelled descriptor) ∧
    (∀ n, 0 < n → toName (brackets n ++ classElement "void") =
      .error (.voidArray (brackets n ++ classElement "void"))) ∧
    (∀ name, ∃! split : String × Nat, Unpaired split.1 ∧ name = split.1 ++ pairs split.2) ∧
    (∀ name base n, Unpaired base → name = base ++ pairs n →
      (toName (ofName name) = .ok name ↔
        '/' ∉ name.toList ∧ base ≠ "" ∧ ¬ (0 < n ∧ base = "void"))) ∧
    ∀ descriptor name, toName descriptor = .ok name →
      (ofName name = descriptor ↔
        (∃ n, ∃ p ∈ primitives, descriptor = brackets n ++ p.1.toString) ∨
        ∃ n internal, Faithful internal ∧ descriptor = brackets n ++ classElement internal) := by
  refine ⟨fun _ => accepted_iff_spelled, fun _ h => toName_voidArray h, fun name => ?_, ?_,
    fun _ _ h => ofName_toName_iff h⟩
  · obtain ⟨base, n, hbase, rfl⟩ := exists_unpaired name
    refine ⟨(base, n), ⟨hbase, rfl⟩, ?_⟩
    rintro ⟨other, m⟩ ⟨hother, hsplit⟩
    obtain ⟨rfl, rfl⟩ := append_pairs_inj hbase hother hsplit
    rfl
  · rintro _ base n hbase rfl
    have hslash : '/' ∉ (base ++ pairs n).toList ↔ '/' ∉ base.toList := by
      simp [String.toList_append, toList_pairs]
    rw [hslash, toName_ofName_iff hbase]

/-- An array of a class comes back from either side. -/
theorem canonical_inverse_classArray :
    toName (ofName "java.lang.String[][]") = .ok "java.lang.String[][]" ∧
      ofName "java.lang.String[][]" = "[[Ljava/lang/String;" := by
  obtain ⟨-, -, -, hname, hdescriptor⟩ := canonical_inverse
  constructor
  · exact (hname _ "java.lang.String" 2 (by decide) (by decide)).2 (by decide)
  · have hfaithful : Faithful "java/lang/String" := ⟨by decide, by decide, by decide⟩
    exact (hdescriptor _ _ (by decide)).2 (.inr ⟨2, "java/lang/String", hfaithful, by decide⟩)

end MarkerIndex.ClassFile.Descriptor
