/-
Modified UTF-8: the byte form of the strings inside a class descriptor.

Each 16-bit unit of a text is written on its own, in one, two or three bytes. Zero takes two bytes,
so a written text holds no zero byte; a surrogate takes three like any other unit of its size.
Reading is more lenient than writing: groups longer than needed and a raw zero byte are accepted.
-/
import MarkerIndex.Text.Utf16
import MarkerIndex.Text.Quoted

namespace MarkerIndex.Text.ModifiedUtf8

/-- What is wrong with bytes that spell no text. -/
inductive Flaw where
  /-- No group starts with this byte. -/
  | lead (byte : UInt8)
  /-- A group goes on with this byte, which belongs to none. -/
  | continuation (byte : UInt8)
  /-- The bytes end inside a group. -/
  | truncated
  /-- The units hold a surrogate without its partner. -/
  | unpaired
  deriving DecidableEq, Repr

def Flaw.message : Flaw → String
  | .lead b => "Invalid modified UTF-8 lead byte - 0x" ++ upperHexByte b.toNat
  | .continuation b => "Invalid modified UTF-8 continuation byte - 0x" ++ upperHexByte b.toNat
  | .truncated => "Truncated modified UTF-8 sequence"
  | .unpaired => "Unpaired surrogate in modified UTF-8 string"

/-! ## Writing -/

/-- The bytes of one unit. -/
def encodeUnit (u : Nat) : List UInt8 :=
  if 0 < u && u < 0x80 then [UInt8.ofNat u]
  else if u < 0x800 then [UInt8.ofNat (0xC0 + u / 0x40), UInt8.ofNat (0x80 + u % 0x40)]
  else
    [UInt8.ofNat (0xE0 + u / 0x1000), UInt8.ofNat (0x80 + u / 0x40 % 0x40),
      UInt8.ofNat (0x80 + u % 0x40)]

def encode (s : String) : List UInt8 :=
  (Utf16.encode s.toList).flatMap encodeUnit

/-! ## Reading -/

/-- A byte of the form `10xxxxxx`. -/
def isContinuation (b : UInt8) : Bool := b.toNat / 0x40 = 2

/-- The payload of a continuation byte. -/
def payload (b : UInt8) : Nat := b.toNat % 0x40

/-- The units of a sequence of groups. -/
def decodeUnits : List UInt8 → Except Flaw (List Nat)
  | [] => .ok []
  | a :: rest =>
    if a.toNat < 0x80 then (decodeUnits rest).map (a.toNat :: ·)
    else if a.toNat / 0x20 = 6 then
      match rest with
      | [] => .error .truncated
      | b :: rest =>
        if isContinuation b then
          (decodeUnits rest).map ((a.toNat % 0x20 * 0x40 + payload b) :: ·)
        else .error (.continuation b)
    else if a.toNat / 0x10 = 14 then
      match rest with
      | [] => .error .truncated
      | b :: rest =>
        if isContinuation b then
          match rest with
          | [] => .error .truncated
          | c :: rest =>
            if isContinuation c then
              (decodeUnits rest).map
                ((a.toNat % 0x10 * 0x1000 + payload b * 0x40 + payload c) :: ·)
            else .error (.continuation c)
        else .error (.continuation b)
    else .error (.lead a)

/-- The text that the groups spell. -/
def decodeGroups (bytes : List UInt8) : Except Flaw String :=
  match decodeUnits bytes with
  | .error flaw => .error flaw
  | .ok units =>
    match Utf16.decode units with
    | none => .error .unpaired
    | some cs => .ok (String.ofList cs)

/-- A byte that is a character of its own. -/
def isAscii (b : UInt8) : Bool := b.toNat < 0x80

/-- The text that the bytes spell; plain seven-bit bytes need no grouping. -/
def decode (bytes : List UInt8) : Except Flaw String :=
  if bytes.all isAscii then .ok (String.ofList (bytes.map fun b => Char.ofNat b.toNat))
  else decodeGroups bytes

end MarkerIndex.Text.ModifiedUtf8
