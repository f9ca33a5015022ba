/-
Texts as sequences of 16-bit units.

A character below 0x10000 is one unit, any other a high surrogate followed by a low one. `decode`
accepts the well-paired sequences and nothing else, so it undoes `encode`.
-/
namespace MarkerIndex.Text.Utf16

/-- The first half of a pair. -/
def isHighSurrogate (u : Nat) : Bool := 0xD800 ≤ u && u < 0xDC00

/-- The second half of a pair. -/
def isLowSurrogate (u : Nat) : Bool := 0xDC00 ≤ u && u < 0xE000

/-- The units of one character. -/
def units (c : Char) : List Nat :=
  if c.toNat < 0x10000 then [c.toNat]
  else [0xD800 + (c.toNat - 0x10000) / 0x400, 0xDC00 + (c.toNat - 0x10000) % 0x400]

/-- The character that a pair of surrogates stands for. -/
def pair (high low : Nat) : Char :=
  Char.ofNat (0x10000 + (high - 0xD800) * 0x400 + (low - 0xDC00))

/-- The units of a text. -/
def encode (cs : List Char) : List Nat := cs.flatMap units

/-- The text of a sequence of units, if every surrogate has its partner. -/
def decode : List Nat → Option (List Char)
  | [] => some []
  | u :: rest =>
    if isHighSurrogate u then
      match rest with
      | [] => none
      | v :: rest => if isLowSurrogate v then (decode rest).map (pair u v :: ·) else none
    else if isLowSurrogate u then none
    else (decode rest).map (Char.ofNat u :: ·)

end MarkerIndex.Text.Utf16
