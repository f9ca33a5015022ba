/-
Blank characters and the removal of blanks around a text.

`isBlank` is membership in the Unicode class of white space. `trim` removes the longest run of
blanks at each end and keeps everything between, so a text is blank exactly when nothing is left.
-/
namespace MarkerIndex.Text

/-- The code points of the white space class, as closed ranges in increasing order. -/
def blankRanges : List (Nat × Nat) :=
  [(0x09, 0x0D), (0x20, 0x20), (0x85, 0x85), (0xA0, 0xA0), (0x1680, 0x1680), (0x2000, 0x200A),
    (0x2028, 0x2029), (0x202F, 0x202F), (0x205F, 0x205F), (0x3000, 0x3000)]

/-- White space: the separators, the line controls and the tabs of Unicode. -/
def isBlank (c : Char) : Bool :=
  blankRanges.any fun (low, high) => low ≤ c.toNat && c.toNat ≤ high

/-- The characters that remain when the blanks at both ends are gone. -/
def trimChars (cs : List Char) : List Char :=
  ((cs.dropWhile isBlank).reverse.dropWhile isBlank).reverse

/-- A text without the blanks around it. -/
def trim (s : String) : String :=
  String.ofList (trimChars s.toList)

/-- A text of blanks alone, or of nothing. -/
def isAllBlank (s : String) : Bool :=
  s.toList.all isBlank

end MarkerIndex.Text
