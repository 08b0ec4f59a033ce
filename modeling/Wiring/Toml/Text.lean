import Wiring.Digits
import Wiring.Toml.Reader

/-!
# TOML strings

A string stands between quotes or apostrophes, single ones on one line and triple ones on any
number of lines. Between quotes a backslash starts an escape.
-/

namespace Wiring.Toml

/-! ### Escapes -/

/-- The letters that escape one character, with that character. -/
def shortEscapes : List (Char × Char) :=
  [('b', '\x08'), ('t', '\t'), ('n', '\n'), ('f', '\x0c'), ('r', '\r'), ('e', '\x1b'),
   ('"', '"'), ('\\', '\\')]

/-- The letters that escape a character by its code point, with the number of digits. -/
def codeEscapes : List (Char × Nat) :=
  [('x', 2), ('u', 4), ('U', 8)]

/-- The text behind any number of spaces and line breaks. -/
def pastLines : List Char → List Char
  | [] => []
  | c :: rest =>
    if isSpace c || c == '\n' then pastLines rest
    else if c == '\r' && rest.head? == some '\n' then pastLines rest
    else c :: rest

namespace Reader

/-- Read the code point that the given number of hexadecimal digits denotes. -/
def codePoint (count : Nat) : Reader Nat := fun text =>
  let digits := text.take count
  if digits.length = count ∧ digits.all (Digits.isDigit 16) then
    some (Digits.number 16 digits, text.drop count)
  else none

/-- Read an escape behind its backslash. -/
def escape : Reader Char := do
  let letter ← next
  match shortEscapes.lookup letter, codeEscapes.lookup letter with
  | some meant, _ => return meant
  | none, some count => do
    let n ← codePoint count
    if n.isValidChar then return Char.ofNat n else fail
  | none, none => fail

/-- Read past a line break and all space behind it, if the line ends here. -/
def lineEnds : Reader Bool := fun text =>
  match text.dropWhile isSpace with
  | '\n' :: rest => some (true, pastLines rest)
  | '\r' :: '\n' :: rest => some (true, pastLines rest)
  | _ => some (false, text)

/-! ### Strings -/

/-- Read a string on one line up to its closing mark. -/
def line (mark : Char) : Nat → Reader (List Char)
  | 0 => fail
  | fuel + 1 => do
    let c ← next
    if c = mark then return []
    else if c = '\\' ∧ mark = '"' then do
      let meant ← escape
      return meant :: (← line mark fuel)
    else if isPlain c then return c :: (← line mark fuel)
    else fail

/-- Read a string on any number of lines up to its closing marks. Up to two more marks in front
of those belong to the string. -/
def block (mark : Char) : Nat → Reader (List Char)
  | 0 => fail
  | fuel + 1 => do
    if ← accept [mark, mark, mark] then
      if ← accept [mark, mark] then return [mark, mark]
      else if ← accept [mark] then return [mark]
      else return []
    else
      let c ← next
      if c = '\\' ∧ mark = '"' then
        if ← lineEnds then block mark fuel
        else do
          let meant ← escape
          return meant :: (← block mark fuel)
      else if isPlain c ∨ c = '\n' ∨ (c = '\r' ∧ (← peek) = some '\n') then
        return c :: (← block mark fuel)
      else fail

/-- Read the rest of a string behind the given opening mark. -/
def lineString (mark : Char) : Reader String := do
  let found ← fun text => line mark (text.length + 1) text
  return String.ofList found

/-- Read the rest of a string behind three of the given opening marks. A line break directly
behind them does not belong to it. -/
def blockString (mark : Char) : Reader String := do
  let _ ← lineBreak
  let found ← fun text => block mark (text.length + 1) text
  return String.ofList found

end Reader

end Wiring.Toml
