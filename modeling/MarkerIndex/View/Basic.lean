/-
Views: markers that answer the methods of an interface.

A view holds a marker with everything applied that was asked for: in shallow mode its own layer
alone, and an overlay above it. Invoking a method takes the property of the same name, else the
default of the method; a nested marker becomes a view in the same mode, and every other value is
coerced to the return type.
-/
import MarkerIndex.Marker
import MarkerIndex.Value.Text
import MarkerIndex.View.Coercion

namespace MarkerIndex

/-- Whether a view sees the layers below the own one. -/
inductive Mode where
  | deep | shallow
  deriving DecidableEq, Repr

def Mode.name : Mode → String
  | .deep => "Deep"
  | .shallow => "Shallow"

/-- A marker seen through an interface. -/
structure View where
  interface : Interface
  marker : Marker Unit
  mode : Mode

/-- What a method answers. -/
inductive ViewValue where
  | scalar (value : Scalar)
  | array (values : List Scalar)
  | view (value : View)
  | views (values : List View)

namespace View

/-- The view of a marker in a mode, with an overlay above its properties. -/
def make {ε : Type} (m : Marker ε) (i : Interface) (mode : Mode)
    (overlay : Option Properties) : View :=
  let m := m.detached
  let m := match mode with
    | .deep => m
    | .shallow => m.shallow
  let m := match overlay with
    | none => m
    | some overlay => m.withOverlay overlay
  ⟨i, m, mode⟩

def type (v : View) : String := v.marker.type

/-! ## Invoking -/

/-- The view of a marker inside this one's. -/
def nested (v : View) (i : Interface) (m : Marker Unit) : View := make m i v.mode none

/-- The fault of a value that does not convert to the return type of a method. -/
def conversionFault {α : Type} (v : View) (m : Method) (value : Value) (flaw : ConversionFlaw) :
    Except Fault α :=
  .error (.conversion v.type m.name value.text m.returns.text flaw)

/-- The answer of a method whose property has the value `value`. -/
def convert (v : View) (m : Method) (value : Value) : Except Fault ViewValue :=
  match m.returns, value with
  | .marker i, .marker inner => .ok (.view (v.nested i inner))
  | .markers i, .markers inner => .ok (.views (inner.map (v.nested i)))
  | .markers i, .marker inner => .ok (.views [v.nested i inner])
  | .markers _, .array [] => .ok (.views [])
  | .marker _, other | .markers _, other =>
    v.conversionFault m other (.incompatible other.formName m.returns.text)
  | returns, stored =>
    match stored.coerce returns with
    | .ok (.scalar s) => .ok (.scalar s)
    | .ok (.array ss) => .ok (.array ss)
    | .ok _ => .error (.refused (.notScalar m.name))
    | .error flaw => v.conversionFault m stored flaw

/-- The answer of a declared method; absence is an answer unless the method forbids it. -/
def answer (v : View) (m : Method) : Except Fault (Option ViewValue) :=
  match (v.marker.get? m.name).or m.default with
  | some value => some <$> v.convert m value
  | none => if m.required then .error (.missingProperty v.type m.name) else .ok none

/-- The answer of the method of a name. -/
def invoke (v : View) (method : String) : Except Fault (Option ViewValue) :=
  match v.interface.method? method with
  | some m => v.answer m
  | none => .error (.unknownMethod v.interface.type method)

def describe (v : View) : String :=
  "View \x7b interface: " ++ Text.quoted v.interface.type ++ ", mode: " ++ v.mode.name
    ++ ", properties: " ++ Properties.describe v.marker.properties ++ " \x7d"

end View

namespace ViewValue

def formName : ViewValue → String
  | .scalar s => s.kind.name
  | .array _ => "array"
  | .view _ => "marker"
  | .views _ => "marker array"

def describe : ViewValue → String
  | .scalar s => "Scalar(" ++ s.describe ++ ")"
  | .array ss => "Array(" ++ bracketed (ss.map Scalar.describe) ++ ")"
  | .view v => "View(" ++ v.describe ++ ")"
  | .views vs => "Views(" ++ bracketed (vs.map View.describe) ++ ")"

end ViewValue

end MarkerIndex
