/-
Names of types and their descriptors. Many descriptors stand for one name: `I` and `Lint;` do, and
slashes and points are not told apart. The descriptor that is written for a name is one of those that
stand for it, unless the name ends in pairs of brackets that no array dimension gave it. So a name
that was read from a descriptor is stable when the internal name in this descriptor does not end in
a pair of brackets.
-/
import MarkerIndex.Proofs.ClassFile.Descriptors
import MarkerIndex.Proofs.ClassFile.Rebuilt

namespace MarkerIndex.ClassFile.Descriptor

/-- The internal name in a descriptor of a class, or of an array of a class. -/
def internalName? (descriptor : String) : Option (List Char) :=
  match descriptor.toList.dropWhile (· = '[') with
  | 'L' :: rest => className? rest
  | _ => none

/-- The name is that of a descriptor whose internal name does not end in a pair of brackets. -/
def Plain (name : String) : Prop :=
  ∃ descriptor, toName descriptor = .ok name ∧
    ∀ internal ∈ internalName? descriptor, ¬ ['[', ']'] <:+ internal

theorem internalName?_class {internal : String} (h : internal ≠ "") (n : Nat) :
    internalName? (brackets n ++ classElement internal) = some internal.toList := by
  have hrun : ∀ c ∈ List.replicate n '[', decide (c = '[') = true := by
    intro c hc
    rw [List.eq_of_mem_replicate hc]
    rfl
  unfold internalName?
  rw [toList_brackets_append, List.dropWhile_append_of_pos hrun, toList_classElement]
  exact className?_append (by simpa using h)

/-- The name of a descriptor whose internal name does not end in a pair of brackets is stable. -/
theorem Plain.stable {name : String} (h : Plain name) : Stable name := by
  obtain ⟨descriptor, hname, hinternal⟩ := h
  obtain ⟨n, element, base, hdenotes, hvoid, rfl, rfl⟩ := toName_eq_ok_iff.1 hname
  have hbase : Unpaired base := by
    cases hdenotes with
    | primitive hmem => exact (primitive_spec _ hmem).2.2.2.1
    | «class» hne => exact unpaired_ofInternal_iff.2 (hinternal _ (internalName?_class hne n))
  exact (toName_ofName_iff hbase n).2 ⟨hdenotes.name.2, hdenotes.name.1, hvoid⟩

end MarkerIndex.ClassFile.Descriptor
