/-!
# Reading TOML

A reader takes something off the front of a text and leaves the rest. Every fault is the same to
those who ask for a document, so a reader simply fails.
-/

namespace Wiring.Toml

/-- A reader of something of the given type. -/
abbrev Reader (α : Type) := StateT (List Char) Option α

/-! ### Characters -/

/-- Whether a character may separate the parts of a line. -/
def isSpace (c : Char) : Bool :=
  c == ' ' || c == '\t'

/-- Whether a character may stand in a comment or string: all but control characters, of which
the tab is allowed. -/
def isPlain (c : Char) : Bool :=
  c == '\t' || (' ' ≤ c && c != '\x7f')

/-- The text behind any number of spaces, comments and line breaks. `inComment` tells that a
comment has begun, which lasts until the end of its line. -/
def pastGap (inComment : Bool) : List Char → List Char
  | [] => []
  | c :: rest =>
    if c == '\n' then pastGap false rest
    else if c == '\r' && rest.head? == some '\n' then pastGap false rest
    else if inComment then if isPlain c then pastGap true rest else c :: rest
    else if isSpace c then pastGap false rest
    else if c == '#' then pastGap true rest
    else c :: rest

namespace Reader

variable {α : Type}

/-- Refuse the text. -/
def fail : Reader α := fun _ => none

/-- The next character, if there is one. -/
def peek : Reader (Option Char) := fun text => some (text.head?, text)

/-- Read one character. -/
def next : Reader Char
  | [] => none
  | c :: rest => some (c, rest)

/-- Read the characters at the front that satisfy `p`. -/
def takeAll (p : Char → Bool) : Reader (List Char) := fun text =>
  some (text.takeWhile p, text.dropWhile p)

/-- Read the given characters if they come next. -/
def accept (marks : List Char) : Reader Bool := fun text =>
  match marks.isPrefixOf? text with
  | some rest => some (true, rest)
  | none => some (false, text)

/-- Read the given characters, which have to come next. -/
def exactly (marks : List Char) : Reader Unit := do
  if ← accept marks then return () else fail

/-- Read a line break if one comes next. -/
def lineBreak : Reader Bool := do
  if ← accept ['\n'] then return true else accept ['\r', '\n']

/-- Read a comment if one comes next, up to the end of its line. -/
def comment : Reader Unit := do
  if ← accept ['#'] then let _ ← takeAll isPlain

/-- Read the spaces and the comment at the end of a line, and its line break unless the text
ends. -/
def endOfLine : Reader Unit := do
  let _ ← takeAll isSpace
  comment
  if (← peek).isSome then
    if ← lineBreak then return () else fail

/-- Read all spaces, comments and line breaks that come next. -/
def gap : Reader Unit := fun text => some ((), pastGap false text)

end Reader

end Wiring.Toml
