/-!
# Digits

Digits in a base of at most sixteen, the letters in either case standing for ten and more. A
digit that has been written is read back (`value_digit`).
-/

namespace Wiring.Digits

/-- The value of a digit. -/
def value (c : Char) : Nat :=
  if '0' ≤ c ∧ c ≤ '9' then c.toNat - '0'.toNat
  else if 'a' ≤ c ∧ c ≤ 'f' then c.toNat - 'a'.toNat + 10
  else c.toNat - 'A'.toNat + 10

/-- Whether a character is a digit in the given base. -/
def isDigit (base : Nat) (c : Char) : Bool :=
  (('0' ≤ c && c ≤ '9') || ('a' ≤ c && c ≤ 'f') || ('A' ≤ c && c ≤ 'F')) && value c < base

/-- The number that digits denote in the given base. -/
def number (base : Nat) (digits : List Char) : Nat :=
  digits.foldl (fun n c => base * n + value c) 0

/-- The digit of a value below sixteen. -/
def digit (value : Nat) : Char :=
  if value < 10 then Char.ofNat ('0'.toNat + value) else Char.ofNat ('a'.toNat + (value - 10))

theorem value_digit {n : Nat} (h : n < 16) : value (digit n) = n := by
  revert n
  decide

theorem isDigit_digit {n : Nat} (h : n < 16) : isDigit 16 (digit n) = true := by
  revert n
  decide

end Wiring.Digits
