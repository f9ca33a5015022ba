/-
Bytes written as hexadecimal digits: two lower-case digits for each byte, and nothing between them.
What is written reads back.
-/
import MarkerIndex.Bytes.BigEndian

namespace MarkerIndex.Hexadecimal

/-- The number that a digit stands for. -/
def digitValue? (c : Char) : Option Nat :=
  if '0' ≤ c ∧ c ≤ '9' then some (c.toNat - '0'.toNat)
  else if 'a' ≤ c ∧ c ≤ 'f' then some (c.toNat - 'a'.toNat + 10)
  else none

theorem digitValue?_digitChar : ∀ n < 16, digitValue? (Nat.digitChar n) = some n := by decide

/-- The digits of bytes. -/
def encode : Bytes → List Char
  | [] => []
  | b :: rest => Nat.digitChar (b.toNat / 16) :: Nat.digitChar (b.toNat % 16) :: encode rest

/-- The bytes that digits spell, a pair of digits for each. -/
def decode? : List Char → Option Bytes
  | [] => some []
  | [_] => none
  | high :: low :: rest => do
    return UInt8.ofNat (16 * (← digitValue? high) + (← digitValue? low)) :: (← decode? rest)

theorem decode?_encode (bs : Bytes) : decode? (encode bs) = some bs := by
  induction bs with
  | nil => rfl
  | cons b rest ih =>
    have : b.toNat < 256 := b.toNat_lt
    have hb : UInt8.ofNat (16 * (b.toNat / 16) + b.toNat % 16) = b := by
      rw [Nat.div_add_mod]; simp
    simpa [encode, decode?, ih, digitValue?_digitChar (b.toNat / 16) (by omega),
      digitValue?_digitChar (b.toNat % 16) (by omega)] using hb

def text (bs : Bytes) : String := String.ofList (encode bs)

def ofText? (s : String) : Option Bytes := decode? s.toList

end MarkerIndex.Hexadecimal
