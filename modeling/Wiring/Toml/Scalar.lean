import Wiring.Digits
import Wiring.Double
import Wiring.Toml.Tree

/-!
# TOML words

A value that is neither a string nor put together of others is one word: a truth value, a number,
a date or a time. Digits may be set apart by single underscores.
-/

namespace Wiring.Toml

/-! ### Digits -/

/-- Whether each underscore of a word stands between two digits. `behindDigit` tells that a digit
comes right before the word. -/
def isSetApart (isDigit : Char → Bool) : Bool → List Char → Bool
  | _, [] => true
  | behindDigit, c :: rest =>
    if c = '_' then behindDigit && rest.head?.any isDigit && isSetApart isDigit false rest
    else isSetApart isDigit (isDigit c) rest

/-- A word without its underscores. -/
def joined (word : List Char) : List Char :=
  word.filter (· != '_')

/-- A word without its sign, and whether that was a minus. -/
def unsigned (word : List Char) : Bool × List Char :=
  match word with
  | '-' :: rest => (true, rest)
  | '+' :: rest => (false, rest)
  | _ => (false, word)

/-- A word that consists of decimal digits. -/
def digits? (word : List Char) : Option (List Char) :=
  if !word.isEmpty && word.all Char.isDigit then some word else none

/-! ### Numbers -/

/-- The integer of a sign and digits in a base. -/
def signed (base : Nat) (negative : Bool) (digits : List Char) : Int :=
  if negative then -(Digits.number base digits) else Digits.number base digits

/-- The value of a sign and digits in a base, if they are digits at all. -/
def integerOf (base : Nat) (negative : Bool) (digits : List Char) : Tree :=
  if !digits.isEmpty && digits.all (Digits.isDigit base) then
    .ofInt (signed base negative digits)
  else .unreadable

/-- An integer in a base of its own, behind the mark of the base. Its digits may be missing. -/
def integerIn? (base : Nat) (word : List Char) : Option Tree :=
  if (joined word).all (Digits.isDigit base) && isSetApart (Digits.isDigit base) false word then
    some (integerOf base false (joined word))
  else none

/-- Whether a character is the point or the exponent mark of a number. -/
def isFloatMark (c : Char) : Bool :=
  c == '.' || c == 'e' || c == 'E'

/-- A decimal integer, which starts with a zero only if that is all of it. From the first
underscore on the letters of greater bases count as digits, and other characters may stand away
from the underscores; an integer with either has no value. -/
def decimal? (word : List Char) : Option Tree :=
  let (negative, magnitude) := unsigned word
  let (leading, rest) := magnitude.span Char.isDigit
  let isSound :=
    match rest with
    | [] => leading == ['0'] || (!leading.isEmpty && leading.head? != some '0')
    | '_' :: _ =>
      leading.head? != some '0' && !rest.any isFloatMark
        && isSetApart (Digits.isDigit 16) false magnitude
    | _ => false
  if isSound then some (integerOf 10 negative (joined magnitude)) else none

/-- A word that is an integer. -/
def integer? (word : List Char) : Option Tree :=
  match word with
  | '0' :: 'x' :: rest => integerIn? 16 rest
  | '0' :: 'o' :: rest => integerIn? 8 rest
  | '0' :: 'b' :: rest => integerIn? 2 rest
  | _ => decimal? word

/-- The exponent behind its mark; a word without the mark has the exponent zero. -/
def exponent? (word : List Char) : Option Int :=
  match word with
  | [] => some 0
  | _ :: rest =>
    let (negative, digits) := unsigned rest
    (digits? digits).map (signed 10 negative)

/-- The digits behind the point of a word, of which there is none without a point. -/
def fraction? (word : List Char) : Option (List Char) :=
  match word with
  | [] => some []
  | _ :: rest => digits? rest

/-- A word that is a number with a fraction or exponent, infinite, or no number. -/
def float? (word : List Char) : Option Tree :=
  let (_, magnitude) := unsigned word
  if magnitude = ['i', 'n', 'f'] ∨ magnitude = ['n', 'a', 'n'] then some .float
  else
    let (mantissa, scale) := (joined magnitude).span fun c => c != 'e' && c != 'E'
    let (whole, fraction) := mantissa.span (· != '.')
    if fraction = [] ∧ scale = [] then none
    else if magnitude.head? = some '0' ∧ whole ≠ ['0'] then none
    else if isSetApart Char.isDigit false magnitude then
      match digits? whole, fraction? fraction, exponent? scale with
      | some whole, some fraction, some exponent =>
        if Double.isInRange (Digits.number 10 (whole ++ fraction)) (exponent - fraction.length)
        then some .float
        else some .unreadable
      | _, _, _ => none
    else none

/-! ### Dates and times -/

/-- The value of two digits if it is within bounds. -/
def within? (least greatest : Nat) (a b : Char) : Option Nat :=
  let value := Digits.number 10 [a, b]
  if a.isDigit && b.isDigit && least ≤ value && value ≤ greatest then some value else none

/-- The number of days of a month. -/
def daysOfMonth (year month : Nat) : Nat :=
  if month = 2 then
    if year % 4 = 0 ∧ (year % 100 ≠ 0 ∨ year % 400 = 0) then 29 else 28
  else if month = 4 ∨ month = 6 ∨ month = 9 ∨ month = 11 then 30
  else 31

/-- The rest of a word behind a date. -/
def pastDate? (word : List Char) : Option (List Char) :=
  match word with
  | y₁ :: y₂ :: y₃ :: y₄ :: '-' :: m₁ :: m₂ :: '-' :: d₁ :: d₂ :: rest => do
    let year := [y₁, y₂, y₃, y₄]
    if !year.all Char.isDigit then none
    let month ← within? 1 12 m₁ m₂
    let _ ← within? 1 (daysOfMonth (Digits.number 10 year) month) d₁ d₂
    return rest
  | _ => none

/-- The rest of a word behind hours and minutes. -/
def pastMinutes? (word : List Char) : Option (List Char) :=
  match word with
  | h₁ :: h₂ :: ':' :: m₁ :: m₂ :: rest => do
    let _ ← within? 0 23 h₁ h₂
    let _ ← within? 0 59 m₁ m₂
    return rest
  | _ => none

/-- The rest of a word behind a time. -/
def pastTime? (word : List Char) : Option (List Char) :=
  match pastMinutes? word with
  | some (':' :: s₁ :: s₂ :: rest) => do
    let _ ← within? 0 60 s₁ s₂
    match rest with
    | '.' :: digits =>
      if (digits.head?.map Char.isDigit).getD false then
        return digits.dropWhile Char.isDigit
      else none
    | _ => return rest
  | some (':' :: _) => none
  | other => other

/-- Whether a word is empty or the distance of a time from universal time. -/
def isOffset (word : List Char) : Bool :=
  match word with
  | [] => true
  | ['Z'] => true
  | ['z'] => true
  | '+' :: rest => pastMinutes? rest == some []
  | '-' :: rest => pastMinutes? rest == some []
  | _ => false

/-- A word that is a date, a time, or both. -/
def moment? (word : List Char) : Option Tree :=
  match pastDate? word with
  | some [] => some .moment
  | some (mark :: rest) =>
    if mark = 'T' ∨ mark = 't' ∨ mark = ' ' then
      match pastTime? rest with
      | some offset => if isOffset offset then some .moment else none
      | none => none
    else none
  | none => if pastTime? word == some [] then some .moment else none

/-! ### Words -/

/-- A word that is a truth value. -/
def boolean? (word : List Char) : Option Tree :=
  if word = ['t', 'r', 'u', 'e'] then some (.boolean true)
  else if word = ['f', 'a', 'l', 's', 'e'] then some (.boolean false)
  else none

/-- The value of a word. -/
def word? (word : List Char) : Option Tree :=
  (boolean? word).or ((integer? word).or ((float? word).or (moment? word)))

end Wiring.Toml
