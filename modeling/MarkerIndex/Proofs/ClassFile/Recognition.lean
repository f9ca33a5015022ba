/-
Markers are told from the bytes that the grammar gives, and from no others. The events are those of
the one marker that has these bytes, if it fits the limit on nesting. The body of an attribute is a
count and as many markers, and nothing behind them.
-/
import MarkerIndex.Proofs.ClassFile.Grammar
import MarkerIndex.Proofs.ClassFile.Parsing
import Mathlib.Data.List.Forall2

namespace MarkerIndex.ClassFile

open Reader (parses_u16)

/-! ## Markers -/

section Markers

variable (t : ConstantTable) (visible : Bool) (limit : Nat)

/-- The events and the bytes are those of the tree, and it fits the limit from `depth` on. -/
structure Spells (depth : Nat) {form : Form} (tree : MarkerTree form) (es : List Event)
    (bs : Bytes) : Prop where
  code : Encodes t tree bs
  within : tree.Within limit depth
  events : es = tree.events visible

/-- The events and the bytes are those of some tree. -/
def Words (depth : Nat) (form : Form) (es : List Event) (bs : Bytes) : Prop :=
  ∃ tree : MarkerTree form, Spells t visible limit depth tree es bs

/-- The same for `n` properties or elements. -/
def Rows (depth : Nat) (form : Form) (n : Nat) (es : List Event) (bs : Bytes) : Prop :=
  ∃ tree : MarkerTree form, tree.count = n ∧ Spells t visible limit depth tree es bs

/-- The events and the bytes behind the byte that announces an element. -/
def Announced (depth : Nat) : ElementTag → Option String → List Event → Bytes → Prop
  | .scalar kind, property, es, bs => ∃ s, ScalarCode t kind s bs ∧ es = [.value property s]
  | .marker, property, es, bs => Words t visible limit depth (.marker property) es bs
  | .array, none, _, _ => False
  | .array, some name, es, bs => depth ≤ limit ∧ ∃ n code es', bs = BigEndian.u16 n ++ code ∧
      Rows t visible limit (depth + 1) .elements n.toNat es' code ∧
      es = .arrayStart name :: (es' ++ [.arrayEnd name])

variable {t visible limit} {depth : Nat} {property : Option String}
  {element : Option String → Telling Unit}

theorem words_content_iff {es : List Event} {bs : Bytes} :
    Words t visible limit depth (.content property) es bs ↔
      ∃ tag back, bs = tag.byte :: back ∧ Announced t visible limit depth tag property es back := by
  constructor
  · rintro ⟨tree, hcode, hwithin, rfl⟩
    cases hcode with
    | value h => exact ⟨_, _, rfl, _, h, rfl⟩
    | @nested _ m _ h => exact ⟨.marker, _, rfl, m, h, hwithin, rfl⟩
    | @array _ elements _ _ hn h =>
      exact ⟨.array, _, rfl, hwithin.1, _, _, _, rfl, ⟨elements, hn.symm, h, hwithin.2, rfl⟩, rfl⟩
  · rintro ⟨tag, back, rfl, h⟩
    cases tag with
    | scalar kind =>
      obtain ⟨s, hcode, rfl⟩ := h
      exact ⟨.value s, .value hcode, trivial, rfl⟩
    | marker =>
      obtain ⟨m, hcode, hwithin, rfl⟩ := h
      exact ⟨.nested m, .nested hcode, hwithin, rfl⟩
    | array =>
      cases property with
      | none => exact h.elim
      | some name =>
        obtain ⟨hdepth, n, code, _, rfl, ⟨elements, hn, hcode, hwithin, rfl⟩, rfl⟩ := h
        exact ⟨.array elements, .array hn.symm hcode, ⟨hdepth, hwithin⟩, rfl⟩

/-- Properties, one after the other. -/
theorem parses_properties
    (h : ∀ p, (element p).Parses (Words t visible limit depth (.content p))) (n : Nat) :
    Telling.Parses (fun σ v => Walk.times n do
      let name ← Walk.read (readIndexed t.utf8)
      element (some name) σ v) (Rows t visible limit depth .properties n) := by
  refine Telling.Parses.times
    (parses_read (parses_indexed t.utf8) fun name => h (some name)) ?_ ?_ n
  · intro es bs
    constructor
    · rintro ⟨tree, hcount, hcode, -, rfl⟩
      cases hcode with
      | noProperties => exact ⟨rfl, rfl⟩
      | property => cases hcount
    · rintro ⟨rfl, rfl⟩
      exact ⟨.noProperties, rfl, .noProperties, trivial, rfl⟩
  · intro n es bs
    constructor
    · rintro ⟨tree, hcount, hcode, hwithin, rfl⟩
      cases hcode with
      | noProperties => cases hcount
      | @property name content others i code code' hname h h' =>
        refine ⟨_, _, _, _, rfl, rfl, ⟨name, _, code, rfl, ?_, content, h, hwithin.1, rfl⟩,
          others, Nat.succ.inj hcount, h', hwithin.2, rfl⟩
        exact ⟨i, rfl, ConstantTable.utf8_eq_ok_iff.2 hname⟩
    · rintro ⟨_, _, _, code', rfl, rfl, ⟨name, _, code, rfl, ⟨i, rfl, hname⟩, content, h, hwithin, rfl⟩,
        others, rfl, h', hwithin', rfl⟩
      exact ⟨.property name content others, rfl,
        .property (ConstantTable.utf8_eq_ok_iff.1 hname) h h', ⟨hwithin, hwithin'⟩, rfl⟩

/-- Elements, one after the other. -/
theorem parses_elements
    (h : ∀ p, (element p).Parses (Words t visible limit depth (.content p))) (n : Nat) :
    Telling.Parses (fun σ v => Walk.times n (element none σ v))
      (Rows t visible limit depth .elements n) := by
  refine Telling.Parses.times (h none) ?_ ?_ n
  · intro es bs
    constructor
    · rintro ⟨tree, hcount, hcode, -, rfl⟩
      cases hcode with
      | noElements => exact ⟨rfl, rfl⟩
      | element => cases hcount
    · rintro ⟨rfl, rfl⟩
      exact ⟨.noElements, rfl, .noElements, trivial, rfl⟩
  · intro n es bs
    constructor
    · rintro ⟨tree, hcount, hcode, hwithin, rfl⟩
      cases hcode with
      | noElements => cases hcount
      | @element content others code code' h h' =>
        exact ⟨_, _, code, code', rfl, rfl, ⟨content, h, hwithin.1, rfl⟩,
          others, Nat.succ.inj hcount, h', hwithin.2, rfl⟩
    · rintro ⟨_, _, code, code', rfl, rfl, ⟨content, h, hwithin, rfl⟩,
        others, rfl, h', hwithin', rfl⟩
      exact ⟨.element content others, rfl, .element h h', ⟨hwithin, hwithin'⟩, rfl⟩

/-- A count, as many properties or elements, and their end. -/
theorem parses_row {w : Telling Unit} {form : Form} {e : Event} (he : e ≠ .finish)
    (hw : ∀ n, Telling.Parses (fun σ v => Walk.times n (w σ v)) (Rows t visible limit depth form n)) :
    Telling.Parses (fun σ v => do
      let count ← Walk.read Reader.u16
      Walk.times count.toNat (w σ v)
      Walk.tell v e) fun es bs => ∃ n code es', bs = BigEndian.u16 n ++ code ∧
        Rows t visible limit depth form n.toNat es' code ∧ es = es' ++ [e] := by
  refine (parses_read parses_u16 fun n => (hw n.toNat).bind (parses_tell he)).congr fun es bs => ?_
  constructor
  · rintro ⟨n, _, _, rfl, rfl, es', _, code, _, rfl, rfl, hrow, rfl, rfl⟩
    exact ⟨n, code, es', by rw [List.append_nil], hrow, rfl⟩
  · rintro ⟨n, code, es', rfl, hrow, rfl⟩
    exact ⟨n, _, _, rfl, rfl, es', _, code, [], rfl, (List.append_nil code).symm, hrow, rfl, rfl⟩

theorem parses_marker (h : ∀ p, (element p).Parses (Words t visible limit (depth + 1) (.content p)))
    (hdepth : depth ≤ limit) (property : Option String) :
    Telling.Parses (fun σ v => tellMarker v t visible (fun p => element p σ v) property)
      (Words t visible limit depth (.marker property)) := by
  refine (parses_read parses_typeName fun type => Telling.Parses.bind
    (parses_tell (e := .markerStart type property visible) (by simp))
    (f := fun _ σ v => _) (parses_row (e := .markerEnd type) (by simp) (parses_properties h))).congr
    fun es bs => ?_
  constructor
  · rintro ⟨type, _, _, rfl, ⟨i, rfl, htype⟩, _, _, _, _, rfl, rfl, ⟨rfl, rfl⟩, n, code, _, rfl,
      ⟨properties, hn, hcode, hwithin, rfl⟩, rfl⟩
    exact ⟨.marker type properties, .marker htype hn.symm hcode, ⟨hdepth, hwithin⟩, rfl⟩
  · rintro ⟨tree, hcode, hwithin, rfl⟩
    cases hcode with
    | @marker _ type properties i n code htype hn hcode =>
      exact ⟨type, _, _, rfl, ⟨i, rfl, htype⟩, _, _, [], _, rfl, rfl, ⟨rfl, rfl⟩, n, code, _, rfl,
        ⟨properties, hn.symm, hcode, hwithin.2, rfl⟩, rfl⟩

theorem parses_array (h : ∀ p, (element p).Parses (Words t visible limit (depth + 1) (.content p)))
    (hdepth : depth ≤ limit) (name : String) :
    Telling.Parses (fun σ v => tellArray v (fun p => element p σ v) name)
      (Announced t visible limit depth .array (some name)) := by
  refine (Telling.Parses.bind (parses_tell (e := .arrayStart name) (by simp))
    (f := fun _ σ v => _) (parses_row (e := .arrayEnd name) (by simp) (parses_elements h))).congr
    fun es bs => ?_
  constructor
  · rintro ⟨_, _, _, _, rfl, rfl, ⟨rfl, rfl⟩, n, code, es', rfl, hrow, rfl⟩
    exact ⟨hdepth, n, code, es', rfl, hrow, rfl⟩
  · rintro ⟨-, n, code, es', rfl, hrow, rfl⟩
    exact ⟨_, _, [], _, rfl, rfl, ⟨rfl, rfl⟩, n, code, es', rfl, hrow, rfl⟩

/-- What an element opens is one deeper than the element, if there is room for it. -/
theorem parses_element (inner : Option (Option String → Telling Unit))
    (hfull : inner = none → limit < depth) (hroom : ∀ element ∈ inner, depth ≤ limit ∧
      ∀ p, (element p).Parses (Words t visible limit (depth + 1) (.content p)))
    (property : Option String) :
    Telling.Parses (fun σ v => tellElement v t visible limit
      (inner.map fun element p => element p σ v) property)
      (Words t visible limit depth (.content property)) := by
  refine Telling.Parses.congr (parses_read
    (G := fun tag => Announced t visible limit depth tag property) parses_elementTag fun tag => ?_)
    fun es bs => ?_
  · cases tag with
    | scalar kind =>
      refine (parses_read (parses_scalar kind) fun s =>
        parses_tell (e := .value property s) (by simp)).congr fun es bs => ?_
      constructor
      · rintro ⟨s, code, _, rfl, hcode, rfl, rfl⟩
        exact ⟨s, by rwa [List.append_nil], rfl⟩
      · rintro ⟨s, hcode, rfl⟩
        exact ⟨s, bs, [], (List.append_nil bs).symm, hcode, rfl, rfl⟩
    | marker =>
      cases inner with
      | none =>
        refine parses_fail _ ?_
        rintro es bs ⟨tree, -, hwithin, -⟩
        cases tree
        exact absurd hwithin.1 (Nat.not_le.2 (hfull rfl))
      | some element =>
        obtain ⟨hdepth, helement⟩ := hroom element rfl
        exact parses_marker helement hdepth property
    | array =>
      cases property with
      | none => exact parses_fail _ fun es bs h => h
      | some name =>
        cases inner with
        | none => exact parses_fail _ fun es bs h => absurd h.1 (Nat.not_le.2 (hfull rfl))
        | some element =>
          obtain ⟨hdepth, helement⟩ := hroom element rfl
          exact parses_array helement hdepth name
  -- The byte in front decides between the three forms, so no two of them are compared.
  · rw [words_content_iff]
    constructor
    · rintro ⟨tag, _, back, rfl, rfl, h⟩
      exact ⟨tag, back, rfl, h⟩
    · rintro ⟨tag, back, rfl, h⟩
      exact ⟨tag, _, back, rfl, rfl, h⟩

variable (t visible limit)

/-- Elements are told from the bytes of elements. -/
theorem parses_elementIn {room : Nat} (hroom : limit + 1 - depth = room) (property : Option String) :
    Telling.Parses (fun _ v => elementIn v t visible limit room property)
      (Words t visible limit depth (.content property)) := by
  -- On the room, as `elementIn` recurs: there is less of it one deeper.
  induction room generalizing depth property with
  | zero =>
    exact parses_element none (fun _ => by omega) (fun element h => by cases h) property
  | succ room ih =>
    refine parses_element (some fun p _ v => elementIn v t visible limit room p)
      (fun h => by cases h) ?_ property
    rintro _ ⟨⟩
    exact ⟨by omega, fun p => ih (by omega) p⟩

/-- Markers are told from the bytes of markers. -/
theorem parses_markerIn (depth : Nat) (property : Option String) :
    Telling.Parses (fun _ v => markerIn v t visible limit (limit + 1 - depth) property)
      (Words t visible limit depth (.marker property)) := by
  cases hroom : limit + 1 - depth with
  | zero =>
    refine parses_fail _ ?_
    rintro es bs ⟨tree, -, hwithin, -⟩
    cases tree
    exact absurd hwithin.1 (by omega)
  | succ room =>
    refine parses_marker (fun p => parses_elementIn t visible limit ?_ p) ?_ property
    · omega
    · omega

end Markers

/-! ## Attributes -/

section Attributes

variable (t : ConstantTable) (visible : Bool) (limit : Nat)

/-- The events and the bytes of `n` markers that fit the limit. -/
def MarkerRows (n : Nat) (es : List Event) (bs : Bytes) : Prop :=
  ∃ (trees : List (MarkerTree (.marker none))) (codes : List Bytes), trees.length = n ∧
    List.Forall₂ (fun tree code => Encodes t tree code ∧ tree.Within limit 1) trees codes ∧
    bs = codes.flatten ∧ es = trees.flatMap (·.events visible)

theorem parses_markers (n : Nat) :
    Telling.Parses (fun _ v => Walk.times n (markerIn v t visible limit limit none))
      (MarkerRows t visible limit n) := by
  refine Telling.Parses.times (parses_markerIn t visible limit 1 none) ?_ ?_ n
  · intro es bs
    constructor
    · rintro ⟨trees, codes, hlength, hcodes, rfl, rfl⟩
      obtain rfl := List.eq_nil_of_length_eq_zero hlength
      cases hcodes
      exact ⟨rfl, rfl⟩
    · rintro ⟨rfl, rfl⟩
      exact ⟨[], [], rfl, .nil, rfl, rfl⟩
  · intro n es bs
    constructor
    · rintro ⟨trees, codes, hlength, hcodes, rfl, rfl⟩
      cases hcodes with
      | nil => cases hlength
      | @cons tree code trees codes h hcodes =>
        exact ⟨_, _, code, codes.flatten, rfl, rfl, ⟨tree, h.1, h.2, rfl⟩,
          trees, codes, Nat.succ.inj hlength, hcodes, rfl, rfl⟩
    · rintro ⟨_, _, code, _, rfl, rfl, ⟨tree, hcode, hwithin, rfl⟩,
        trees, codes, rfl, hcodes, rfl, rfl⟩
      exact ⟨tree :: trees, code :: codes, rfl, .cons ⟨hcode, hwithin⟩ hcodes, rfl, rfl⟩

variable {t visible limit} {σ : Type} {v : Visitor σ}

/-- The body of an attribute is told from a count and as many markers. -/
theorem tellMarkers_ok_iff {name : String} {body rest : Bytes} {s s' : σ} :
    tellMarkers v t visible limit name body s = (.ok (), rest, s') ↔ rest = [] ∧
      ∃ n code es, body = BigEndian.u16 n ++ code ∧ MarkerRows t visible limit n.toNat es code ∧
        v.hear es s = (true, s') := by
  have hmarkers := parses_read parses_u16 fun n => parses_markers t visible limit n.toNat
  unfold tellMarkers
  -- Nothing is parsed by the check at the end, which asks for what is behind the markers.
  rw [← Walk.bind_bind, Walk.bind_ok]
  constructor
  · rintro ⟨_, mid, u, htold, hend⟩
    obtain ⟨es, _, rfl, ⟨n, _, code, rfl, rfl, hrows⟩, hes⟩ := (hmarkers σ v _ _ _ _).1 htold
    obtain ⟨rfl, rfl, rfl⟩ := Walk.atEnd_ok hend
    exact ⟨rfl, n, code, es, List.append_nil _, hrows, hes⟩
  · rintro ⟨rfl, n, code, es, rfl, hrows, hes⟩
    refine ⟨(), [], s', (hmarkers σ v _ _ _ _).2 ?_, rfl⟩
    exact ⟨es, _, (List.append_nil _).symm, ⟨n, _, code, rfl, rfl, hrows⟩, hes⟩

end Attributes

/-! ## Telling is parsing -/

section Exactly

variable {t : ConstantTable} {limit depth : Nat} {property : Option String}
  {tree tree' : MarkerTree (.marker property)} {code code' rest rest' : Bytes} {σ : Type}
  {v : Visitor σ}

/-- From the bytes of a tree a visitor that never declines is told the events of the tree. -/
theorem markerIn_traced (visible : Bool) (hv : v.Tireless) (s : σ) (h : Encodes t tree code)
    (hwithin : tree.Within limit depth) (rest : Bytes) :
    ∃ s', v.hear (tree.events visible) s = (true, s') ∧
      markerIn v.traced t visible limit (limit + 1 - depth) property (code ++ rest) ([], s) =
        (.ok (), rest, tree.events visible, s') := by
  obtain ⟨s', hs'⟩ := hv.hear (tree.events visible) s
  refine ⟨s', hs', ?_⟩
  refine (parses_markerIn t visible limit depth property _ v.traced _ _ _ _).2 ?_
  exact ⟨_, code, rfl, ⟨tree, h, hwithin, rfl⟩, Visitor.hear_traced [] hs'⟩

/-- The bytes are those of one tree only, and where they end is plain from them. -/
theorem Encodes.unique (h : Encodes t tree code) (h' : Encodes t tree' code')
    (heq : code ++ rest = code' ++ rest') : tree = tree' ∧ code = code' ∧ rest = rest' := by
  obtain ⟨n, hn⟩ := tree.exists_within
  obtain ⟨n', hn'⟩ := tree'.exists_within
  -- Under a limit with room for both, both are what is told from these bytes.
  have hsilent : Visitor.silent.Tireless := fun _ _ => rfl
  obtain ⟨_, -, htold⟩ := markerIn_traced true hsilent () h
    (hn (n + n') 0 (by omega)) rest
  obtain ⟨_, -, htold'⟩ := markerIn_traced true hsilent () h'
    (hn' (n + n') 0 (by omega)) rest'
  rw [heq, htold'] at htold
  simp only [Prod.mk.injEq, true_and] at htold
  obtain ⟨rfl, hevents, -⟩ := htold
  refine ⟨?_, List.append_cancel_right heq, rfl⟩
  exact (MarkerTree.events_append_inj (congrArg (· ++ []) hevents.symm) trivial trivial).1

/-- Told to a visitor that never declines, a marker that is `depth` deep is accepted exactly from the
bytes of a tree that fits the limit from there on, whatever follows them. The visitor is told the
events of the tree; and the bytes are those of no other tree, nor do they have another front that
belongs to a tree. The body of an attribute is accepted exactly if it is a count and the bytes of as
many markers that fit the limit. -/
theorem markers_accepted_exactly (hv : v.Tireless) (s : σ) (t : ConstantTable) (visible : Bool)
    (limit : Nat) :
    (∀ (depth : Nat) (property : Option String) (bytes rest : Bytes),
      (∃ s', markerIn v t visible limit (limit + 1 - depth) property bytes s =
          (.ok (), rest, s')) ↔
        ∃ (tree : MarkerTree (.marker property)) (code : Bytes),
          bytes = code ++ rest ∧ Encodes t tree code ∧ tree.Within limit depth) ∧
    (∀ (depth : Nat) (property : Option String) (tree : MarkerTree (.marker property))
      (code rest : Bytes), Encodes t tree code → tree.Within limit depth →
        ∃ s', v.hear (tree.events visible) s = (true, s') ∧
          markerIn v.traced t visible limit (limit + 1 - depth) property (code ++ rest) ([], s) =
            (.ok (), rest, tree.events visible, s')) ∧
    (∀ (property : Option String) (tree tree' : MarkerTree (.marker property))
      (code code' rest rest' : Bytes), Encodes t tree code → Encodes t tree' code' →
        code ++ rest = code' ++ rest' → tree = tree' ∧ code = code' ∧ rest = rest') ∧
    ∀ (name : String) (body : Bytes),
      (∃ rest s', tellMarkers v t visible limit name body s = (.ok (), rest, s')) ↔
        ∃ (n : UInt16) (trees : List (MarkerTree (.marker none))) (codes : List Bytes),
          body = BigEndian.u16 n ++ codes.flatten ∧ trees.length = n.toNat ∧
          List.Forall₂ (fun tree code => Encodes t tree code ∧ tree.Within limit 1) trees codes := by
  refine ⟨?_, ?_, ?_, ?_⟩
  · intro depth property bytes rest
    constructor
    · rintro ⟨s', h⟩
      obtain ⟨_, code, rfl, ⟨tree, hcode, hwithin, -⟩, -⟩ :=
        (parses_markerIn t visible limit depth property σ v _ _ _ _).1 h
      exact ⟨tree, code, rfl, hcode, hwithin⟩
    · rintro ⟨tree, code, rfl, hcode, hwithin⟩
      obtain ⟨s', hs'⟩ := hv.hear (tree.events visible) s
      refine ⟨s', (parses_markerIn t visible limit depth property σ v _ _ _ _).2 ?_⟩
      exact ⟨_, code, rfl, ⟨tree, hcode, hwithin, rfl⟩, hs'⟩
  · intro depth property tree code rest h hwithin
    exact markerIn_traced visible hv s h hwithin rest
  · intro property tree tree' code code' rest rest' h h' heq
    exact h.unique h' heq
  · intro name body
    constructor
    · rintro ⟨rest, s', h⟩
      obtain ⟨-, n, _, es, rfl, ⟨trees, codes, hn, hcodes, rfl, -⟩, -⟩ := tellMarkers_ok_iff.1 h
      exact ⟨n, trees, codes, rfl, hn, hcodes⟩
    · rintro ⟨n, trees, codes, rfl, hn, hcodes⟩
      obtain ⟨s', hs'⟩ := hv.hear (trees.flatMap (·.events visible)) s
      refine ⟨[], s', tellMarkers_ok_iff.2 ⟨rfl, n, _, _, rfl, ?_, hs'⟩⟩
      exact ⟨trees, codes, hn, hcodes, rfl, rfl⟩

/-- A table with a descriptor of the type `M` and the name `x`. -/
def namesTable : ConstantTable := ⟨#[none, some (.utf8 "LM;"), some (.utf8 "x")]⟩

/-- An `M` inside an `M` fits a limit of two, and there is no room for it under a limit of one. -/
theorem markers_accepted_exactly_nested : Visitor.silent.Tireless ∧
    (∃ (tree : MarkerTree (.marker none)) (code : Bytes),
      [0, 1, 0, 1, 0, 2, 0x40, 0, 1, 0, 0, 9] = code ++ [9] ∧ Encodes namesTable tree code ∧
      tree.Within 2 1 ∧ tree.events true = [.markerStart "M" none true,
        .markerStart "M" (some "x") true, .markerEnd "M", .markerEnd "M"]) ∧
    ¬ ∃ (tree : MarkerTree (.marker none)) (code : Bytes),
      [0, 1, 0, 1, 0, 2, 0x40, 0, 1, 0, 0, 9] = code ++ [9] ∧ Encodes namesTable tree code ∧
      tree.Within 1 1 := by
  have hsilent : Visitor.silent.Tireless := fun _ _ => rfl
  have hexactly := markers_accepted_exactly hsilent () namesTable true 2
  refine ⟨hsilent, ?_, ?_⟩
  · obtain ⟨tree, code, hbytes, hcode, hwithin⟩ :=
      (hexactly.1 1 none [0, 1, 0, 1, 0, 2, 0x40, 0, 1, 0, 0, 9] [9]).1 ⟨(), by decide⟩
    refine ⟨tree, code, hbytes, hcode, hwithin, ?_⟩
    obtain ⟨_, -, htold⟩ := hexactly.2.1 1 none tree code [9] hcode hwithin
    rw [← hbytes] at htold
    exact (Prod.mk.inj (Prod.mk.inj (Prod.mk.inj htold).2).2).1.symm
  · rw [← (markers_accepted_exactly hsilent () namesTable true 1).1]
    rintro ⟨⟨⟩, h⟩
    exact absurd h (by decide)

end Exactly

end MarkerIndex.ClassFile
