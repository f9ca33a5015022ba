/-
Making markers and deriving markers from markers.

A marker is made only with a type that is more than blanks. A derived marker keeps the type; it has
other properties, another element or none.
-/
import MarkerIndex.Fault
import MarkerIndex.Text.Blank
import MarkerIndex.Value.Basic

namespace MarkerIndex.MarkerOf

variable {ε δ : Type}

/-- The marker of a type, refused when the type is blank. -/
def make (type : String) (properties : Properties) (element : Option ε) :
    Except Fault (Marker ε) :=
  if Text.isAllBlank type then .error (.malformed .untypedMarker)
  else .ok ⟨type, properties, element⟩

def get? (m : Marker ε) (property : String) : Option Value := m.properties.get? property

/-- The marker on another element. -/
def withElement (m : Marker ε) (element : Option δ) : Marker δ :=
  ⟨m.type, m.properties, element⟩

/-- The marker on no element. -/
def detached (m : Marker ε) : Marker Unit := m.withElement none

/-- The marker with `overlay` over its properties. -/
def withOverlay (m : Marker ε) (overlay : Properties) : Marker ε :=
  ⟨m.type, overlay.shadowing m.properties, m.element⟩

/-- The marker with the properties of its own layer alone. -/
def shallow (m : Marker ε) : Marker ε := ⟨m.type, m.properties.orphan, m.element⟩

/-- The first marker of each type, in the order of the types. -/
def firstOfEachType (ms : List (Marker ε)) : Entries String (Marker ε) :=
  Entries.firsts (ms.map fun m => (m.type, m))

end MarkerIndex.MarkerOf
