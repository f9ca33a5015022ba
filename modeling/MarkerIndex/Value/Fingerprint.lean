/-
Fingerprints of values, which agree with equality by content.

A value is fed to a hash as a sequence of tokens. The entries of a property set are hashed one by
one and the results added up, so the order in which they are listed leaves no trace; the hash of
one entry is a parameter, and the agreement does not depend on which it is.
-/
import MarkerIndex.Value.Basic

namespace MarkerIndex

/-- One item that is fed to a hash. -/
inductive Token where
  | tag (index : Nat)
  | count (n : Nat)
  | number (n : Int)
  | word (bits : UInt64)
  | text (s : String)
  deriving DecidableEq, Hashable

def Scalar.tokens : Scalar → List Token
  | .bool b => [.tag 0, .number b.toInt]
  | .char c => [.tag 1, .number c.toNat]
  | .byte n => [.tag 2, .number n.toInt]
  | .short n => [.tag 3, .number n.toInt]
  | .int n => [.tag 4, .number n.toInt]
  | .long n => [.tag 5, .number n.toInt]
  | .float bits => [.tag 6, .number bits.toNat]
  | .double bits => [.tag 7, .number bits.toNat]
  | .string s => [.tag 8, .text s]
  | .enum type constant => [.tag 9, .text type, .text constant]
  | .class name => [.tag 10, .text name]

mutual

/-- The tokens of a value, when the entries of property sets are hashed by `hash`. -/
def Value.tokens (hash : List Token → UInt64) : Value → List Token
  | .scalar s => .tag 0 :: s.tokens
  | .array ss => .tag 1 :: .count ss.length :: ss.flatMap Scalar.tokens
  | .marker m => .tag 2 :: .text m.type :: Properties.tokens hash m.properties
  | .markers ms => .tag 3 :: .count ms.length :: ms.attach.flatMap fun ⟨m, _⟩ =>
      .text m.type :: Properties.tokens hash m.properties
termination_by v => sizeOf v
decreasing_by
  · have := m.sizeOf_properties_lt
    simp; omega
  · have := m.sizeOf_properties_lt
    have := List.sizeOf_lt_of_mem ‹m ∈ ms›
    simp; omega

/-- The tokens of a property set: how many names resolve, and the sum over their entries. -/
def Properties.tokens (hash : List Token → UInt64) (p : Properties) : List Token :=
  let sum := p.resolved.attach.foldr (fun ⟨(key, value), _⟩ total =>
    hash (.text key :: value.tokens hash) + total) 0
  [.count p.size, .word sum]
termination_by sizeOf p
decreasing_by
  have := Layered.sizeOf_lt_of_mem ‹(key, value) ∈ p.resolved›
  simpa using this

end

/-- The tokens of a marker, whatever carries it. -/
def MarkerOf.tokens {ε : Type} (hash : List Token → UInt64) (m : Marker ε) : List Token :=
  .text m.type :: Properties.tokens hash m.properties

end MarkerIndex
