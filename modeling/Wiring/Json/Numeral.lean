import Wiring.Digits
import Wiring.Double
import Wiring.Json.Reader

/-!
# JSON numbers

No document holds a number where one is wanted, so all that matters of a number is where it
ends and whether it is one. A number that is looked at as a value also has to lie in the range
of double precision, its significand and its power of ten being rounded one by one.
-/

namespace Wiring.Json

/-! ### The form of numbers -/

/-- The digits of a number and the power of ten that it is scaled by. -/
structure Numeral where
  whole : List Char
  fraction : List Char := []
  exponent : Int := 0
deriving DecidableEq, Repr

namespace Numeral

/-- The digits at the front of a text, of which there has to be at least one, and the rest. -/
def digits (text : List Char) : Except Fault (List Char × List Char) :=
  match text.takeWhile Char.isDigit with
  | [] => .error (if text.isEmpty then .truncated else .malformed)
  | found => .ok (found, text.dropWhile Char.isDigit)

/-- The whole part of a number, which starts with a zero only if that is all of it. -/
def wholePart (text : List Char) : Except Fault (List Char × List Char) :=
  match digits text with
  | .ok (found, rest) =>
    if found.head? = some '0' ∧ found.length > 1 then .error .malformed else .ok (found, rest)
  | .error fault => .error fault

/-- The fraction of a number, if there is one. -/
def fractionPart (text : List Char) : Except Fault (List Char × List Char) :=
  match text with
  | '.' :: rest => digits rest
  | _ => .ok ([], text)

/-- The exponent behind its mark. -/
def exponentDigits (text : List Char) : Except Fault (Int × List Char) :=
  match text with
  | '-' :: rest => (digits rest).map fun (found, rest) => (-(Digits.number 10 found : Int), rest)
  | '+' :: rest => (digits rest).map fun (found, rest) => ((Digits.number 10 found : Int), rest)
  | _ => (digits text).map fun (found, rest) => ((Digits.number 10 found : Int), rest)

/-- The exponent of a number, if there is one. -/
def exponentPart (text : List Char) : Except Fault (Int × List Char) :=
  match text with
  | 'e' :: rest => exponentDigits rest
  | 'E' :: rest => exponentDigits rest
  | _ => .ok (0, text)

/-- A number without its sign. -/
def unsigned (text : List Char) : Except Fault (Numeral × List Char) := do
  let (whole, text) ← wholePart text
  let (fraction, text) ← fractionPart text
  let (exponent, text) ← exponentPart text
  return (⟨whole, fraction, exponent⟩, text)

/-- A number at the front of a text. -/
def scan (text : List Char) : Except Fault (Numeral × List Char) :=
  match text with
  | '-' :: rest => unsigned rest
  | _ => unsigned text

/-! ### The range of numbers -/

/-- The greatest significand that is kept: what fits into 64 bits. -/
def significandLimit : Nat :=
  Nat.pow 2 64

/-- Digits taken into a significand up to its limit. Behind the first digit that does not fit,
no digit is taken. The result tells how many digits were left out. -/
def takeDigits (significand : Nat) : List Char → Nat × Nat
  | [] => (significand, 0)
  | c :: rest =>
    if 10 * significand + Digits.value c < significandLimit then
      takeDigits (10 * significand + Digits.value c) rest
    else (significand, rest.length + 1)

/-- The significand of a number and the power of ten that it is multiplied with. Digits of the
whole part that are left out scale it up, digits of the fraction that are taken scale it down. -/
def scaled (n : Numeral) : Nat × Int :=
  let (whole, skipped) := takeDigits 0 n.whole
  let (significand, skippedFraction) := takeDigits whole n.fraction
  (significand, n.exponent + skipped - (n.fraction.length - skippedFraction : Nat))

/-- Whether a number is in the range of double precision. -/
def isInRange (n : Numeral) : Bool :=
  Double.isRoundedInRange n.scaled.1 n.scaled.2

end Numeral

/-! ### Readers -/

namespace Reader

/-- Read a number as a value. -/
def number : Reader Unit := fun text =>
  match Numeral.scan text with
  | .ok (n, rest) => if n.isInRange then .ok ((), rest) else .error .malformed
  | .error fault => .error fault

/-- Read a number only to find its end. -/
def skipNumber : Reader Unit := fun text =>
  match Numeral.scan text with
  | .ok (_, rest) => .ok ((), rest)
  | .error _ => .error .malformed

end Reader

end Wiring.Json
