/-
Numbers as bytes, most significant byte first.
-/
namespace MarkerIndex

abbrev Bytes := List UInt8

namespace BigEndian

/-- The number that the bytes spell. -/
def value (bs : Bytes) : Nat := bs.foldl (fun n b => n * 256 + b.toNat) 0

/-- The `width` low bytes of a number. -/
def encode (width n : Nat) : Bytes :=
  match width with
  | 0 => []
  | w + 1 => UInt8.ofNat (n / Nat.pow 256 w) :: encode w n

def u16 (n : UInt16) : Bytes := encode 2 n.toNat

def u32 (n : UInt32) : Bytes := encode 4 n.toNat

def u64 (n : UInt64) : Bytes := encode 8 n.toNat

end BigEndian

end MarkerIndex
