/-
Quoted texts, as they stand inside a diagnostic rendering: a pair of quotes around the characters,
each control, separator or otherwise invisible character replaced by an escape. Combining marks,
those that extend the character in front of them, and code points that are not assigned are left out
of this: they would be escaped as well, and stand here as they are.
-/
namespace MarkerIndex.Text

/-- Code points without a visible form of their own, as closed ranges: controls, separators other
than the plain space, format characters, line and paragraph breaks, and the private areas. -/
def invisibleRanges : List (Nat × Nat) :=
  [(0x00, 0x1F), (0x7F, 0xA0), (0xAD, 0xAD), (0x600, 0x605), (0x61C, 0x61C), (0x6DD, 0x6DD),
    (0x70F, 0x70F), (0x890, 0x891), (0x8E2, 0x8E2), (0x1680, 0x1680), (0x180E, 0x180E),
    (0x2000, 0x200F), (0x2028, 0x202F), (0x205F, 0x206F), (0x3000, 0x3000), (0xE000, 0xF8FF),
    (0xFEFF, 0xFEFF), (0xFFF9, 0xFFFB), (0xFFFE, 0xFFFF), (0xE0001, 0xE0001), (0xE0020, 0xE007F),
    (0xF0000, 0x10FFFF)]

/-- A character of these ranges; combining marks and unassigned code points are not among them. -/
def isInvisible (c : Char) : Bool :=
  invisibleRanges.any fun (low, high) => low ≤ c.toNat && c.toNat ≤ high

/-- The digits of `n` to base sixteen, in lower case and without leading zeros. -/
def lowerHex (n : Nat) : String :=
  String.ofList (Nat.toDigits 16 n)

/-- `n` to base sixteen in upper case, with at least two digits. -/
def upperHexByte (n : Nat) : String :=
  let digits := (Nat.toDigits 16 n).map Char.toUpper
  String.ofList (List.replicate (2 - digits.length) '0' ++ digits)

/-- One character between quotes of the kind `quote`. -/
def escaped (quote c : Char) : String :=
  if c = '\x00' then "\\0"
  else if c = '\t' then "\\t"
  else if c = '\n' then "\\n"
  else if c = '\r' then "\\r"
  else if c = '\\' then "\\\\"
  else if c = quote then "\\" ++ quote.toString
  else if isInvisible c then "\\u\x7b" ++ lowerHex c.toNat ++ "\x7d"
  else c.toString

/-- A text between double quotes. -/
def quoted (s : String) : String :=
  "\"" ++ String.join (s.toList.map (escaped '"')) ++ "\""

/-- A character between single quotes. -/
def quotedChar (c : Char) : String :=
  "'" ++ escaped '\'' c ++ "'"

end MarkerIndex.Text
