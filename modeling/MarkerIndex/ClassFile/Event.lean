/-
Events of a class descriptor, and the visitors that receive them.

A descriptor is told as one header, then the markers in order, each between its start and its end,
and a finish. A visitor is a state machine: for each event it gives its next state and says whether
to go on. The finish cannot be declined.
-/
import MarkerIndex.Scalar

namespace MarkerIndex.ClassFile

/-- The head of a class descriptor. -/
structure Header where
  minor : UInt16
  major : UInt16
  flags : UInt16
  name : String
  super : Option String
  interfaces : List String
  deriving DecidableEq, Repr

/-- One thing told about a class descriptor. -/
inductive Event where
  | header (header : Header)
  /-- A marker opens, as the value of a property of the marker around it if there is one. -/
  | markerStart (type : String) (property : Option String) (visible : Bool)
  /-- A scalar, named unless it is an element of an array. -/
  | value (property : Option String) (value : Scalar)
  | arrayStart (property : String)
  | arrayEnd (property : String)
  | markerEnd (type : String)
  | finish
  deriving DecidableEq, Repr

/-- A receiver of events with states in `σ`. The flag of an answer says whether to go on. -/
structure Visitor (σ : Type) where
  visit : Event → σ → Bool × σ

namespace Visitor

def silent : Visitor Unit := ⟨fun _ s => (true, s)⟩

/-- Collects the events, and declines the one with the number `stop`. -/
def recording (stop : Option Nat) : Visitor (Array Event) :=
  ⟨fun e seen => (stop != some (seen.size + 1), seen.push e)⟩

end Visitor

end MarkerIndex.ClassFile
