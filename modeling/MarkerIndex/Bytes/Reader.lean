/-
Reading from the front of a sequence of bytes.

A reader takes the bytes that remain and gives an answer or a fault together with the bytes that
remain after it. The bytes after a fault are part of the answer: a reader that runs out of bytes
leaves them all, and one that finds damaged text has taken the text.
-/
import MarkerIndex.Bytes.BigEndian
import MarkerIndex.Fault

namespace MarkerIndex

/-- A computation that consumes bytes from the front. -/
def Reader (α : Type) : Type := Bytes → Except Fault α × Bytes

namespace Reader

variable {α β : Type}

def done (a : α) : Reader α := fun rest => (.ok a, rest)

def fail (f : Fault) : Reader α := fun rest => (.error f, rest)

/-- Reads on after an answer; a fault ends the reading. -/
def andThen (r : Reader α) (f : α → Reader β) : Reader β := fun rest =>
  match r rest with
  | (.ok a, rest) => f a rest
  | (.error e, rest) => (.error e, rest)

instance : Monad Reader where
  pure := done
  bind := andThen

/-- Answers with what is already known. -/
def ofExcept (e : Except Fault α) : Reader α := fun rest => (e, rest)

/-- At least `n` bytes remain; no more than `n` are looked at. -/
def covers : Nat → Bytes → Bool
  | 0, _ => true
  | _ + 1, [] => false
  | n + 1, _ :: rest => covers n rest

def hasMore (rest : Bytes) : Bool := !rest.isEmpty

def take (n : Nat) : Reader Bytes := fun rest =>
  if covers n rest then (.ok (rest.take n), rest.drop n) else (.error .outOfBounds, rest)

/-- Passes over `n` bytes. -/
def skip (n : Nat) : Reader Unit := fun rest =>
  if covers n rest then (.ok (), rest.drop n) else (.error .outOfBounds, rest)

/-! ## Numbers -/

/-- The number in the next `width` bytes. -/
def number (width : Nat) : Reader Nat := do
  return BigEndian.value (← take width)

def u8 : Reader UInt8 := do return .ofNat (← number 1)
def u16 : Reader UInt16 := do return .ofNat (← number 2)
def u32 : Reader UInt32 := do return .ofNat (← number 4)
def u64 : Reader UInt64 := do return .ofNat (← number 8)
def i8 : Reader Int8 := do return (← u8).toInt8
def i16 : Reader Int16 := do return (← u16).toInt16
def i32 : Reader Int32 := do return (← u32).toInt32
def i64 : Reader Int64 := do return (← u64).toInt64

/-! ## Text -/

/-- The text in the next `n` bytes, which are taken even when they spell none. -/
def text (n : Nat) : Reader String := do
  match Text.ModifiedUtf8.decode (← take n) with
  | .ok s => done s
  | .error flaw => fail (.malformed (.encoding flaw))

end Reader

end MarkerIndex
