/-
Walking through bytes while telling a visitor.

A walk consumes bytes and hands events to a visitor. It ends with an answer, with a fault of the
bytes, or because the visitor declined an event; the bytes that are left and the visitor's state at
the end are part of the outcome in each case, and after an end nothing more is read or told.
-/
import MarkerIndex.Bytes.Reader
import MarkerIndex.ClassFile.Event

namespace MarkerIndex.ClassFile

/-- Why a walk ended before its time. -/
inductive Stop where
  | fault (cause : Fault)
  | declined
  deriving DecidableEq, Repr

/-- A computation that consumes bytes and tells a visitor with states in `σ`. -/
def Walk (σ α : Type) : Type := Bytes → σ → Except Stop α × Bytes × σ

namespace Walk

variable {σ α β : Type}

def done (a : α) : Walk σ α := fun rest s => (.ok a, rest, s)

def fail (f : Fault) : Walk σ α := fun rest s => (.error (.fault f), rest, s)

def andThen (w : Walk σ α) (f : α → Walk σ β) : Walk σ β := fun rest s =>
  match w rest s with
  | (.ok a, rest, s) => f a rest s
  | (.error e, rest, s) => (.error e, rest, s)

instance : Monad (Walk σ) where
  pure := done
  bind := andThen

/-- Reads, and tells nothing. -/
def read (r : Reader α) : Walk σ α := fun rest s =>
  match r rest with
  | (.ok a, rest) => (.ok a, rest, s)
  | (.error f, rest) => (.error (.fault f), rest, s)

/-- Tells the visitor an event; the walk ends when the visitor declines it. -/
def tell (v : Visitor σ) (e : Event) : Walk σ Unit := fun rest s =>
  match v.visit e s with
  | (true, s) => (.ok (), rest, s)
  | (false, s) => (.error .declined, rest, s)

/-- Tells the visitor an event whatever it answers. -/
def tellLast (v : Visitor σ) (e : Event) : Walk σ Unit := fun rest s =>
  (.ok (), rest, (v.visit e s).2)

/-- The walk taken `n` times. -/
def times : Nat → Walk σ Unit → Walk σ Unit
  | 0, _ => done ()
  | n + 1, w => w.andThen fun _ => times n w

/-- The walk over other bytes. The bytes that remain here are untouched; only when the walk ends
before its time does what it left of the other bytes remain. -/
def within (body : Bytes) (w : Walk σ α) : Walk σ α := fun rest s =>
  match w body s with
  | (.ok a, _, s) => (.ok a, rest, s)
  | (.error e, left, s) => (.error e, left, s)

/-- Ends with a fault when bytes remain. -/
def atEnd (f : Fault) : Walk σ Unit := fun rest s =>
  if Reader.hasMore rest then (.error (.fault f), rest, s) else (.ok (), rest, s)

end Walk

end MarkerIndex.ClassFile
