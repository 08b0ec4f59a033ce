import Wiring.Toml.Scalar
import Wiring.Toml.Text

/-!
# TOML documents

A document consists of lines. A line names a value for a key of the current table, or is a header
that opens the table to which the following lines belong. Lists and tables that are written as
values may be nested up to a fixed depth, which also bounds the parts of a key.
-/

namespace Wiring.Toml

namespace Reader

/-! ### Keys -/

/-- How many parts a key may have, and how deep lists and tables may be nested in a value. -/
def depthLimit : Nat :=
  80

/-- Whether a character may stand in a key without quotes. -/
def isBare (c : Char) : Bool :=
  c.isAlphanum || c == '_' || c == '-'

/-- Read one part of a key. -/
def keyPart : Reader String := do
  if ← accept ['"'] then lineString '"'
  else if ← accept ['\''] then lineString '\''
  else do
    let found ← takeAll isBare
    if found.isEmpty then fail else return String.ofList found

/-- Read the parts of a key, which dots set apart. There may be as many as given. -/
def keyParts : Nat → Reader (List String)
  | 0 => fail
  | count + 1 => do
    let first ← keyPart
    let _ ← takeAll isSpace
    if ← accept ['.'] then do
      let _ ← takeAll isSpace
      return first :: (← keyParts count)
    else return [first]

/-- Read a key and the space behind it: the tables that it passes through, and its last part. -/
def key : Reader (List String × String) := do
  let parts ← keyParts depthLimit
  match parts.getLast? with
  | some last => return (parts.dropLast, last)
  | none => fail

/-! ### Values -/

/-- Whether a character ends a word. -/
def endsWord (c : Char) : Bool :=
  isSpace c || c == '\n' || c == '\r' || c == '#' || c == ',' || c == '='
    || c == '[' || c == ']' || c == '\x7b' || c == '\x7d'

/-- Read characters up to the end of a word. -/
def wordText : Reader (List Char) :=
  takeAll fun c => !endsWord c

/-- Read a word. One space may stand between a date and a time. -/
def word : Reader Tree := do
  let found ← wordText
  let found ← fun text =>
    match pastDate? found, text with
    | some [], ' ' :: c :: rest =>
      if c.isDigit then
        (wordText (c :: rest)).map fun (time, rest) => (found ++ ' ' :: time, rest)
      else some (found, text)
    | _, _ => some (found, text)
  match word? found with
  | some value => return value
  | none => fail

mutual

/-- Read a value, within the given number of lists and tables. -/
def value : Nat → Nat → Reader Tree
  | 0, _ => fail
  | fuel + 1, depth => do
    if ← accept ['"', '"', '"'] then return .text (← blockString '"')
    else if ← accept ['"'] then return .text (← lineString '"')
    else if ← accept ['\'', '\'', '\''] then return .text (← blockString '\'')
    else if ← accept ['\''] then return .text (← lineString '\'')
    else if ← accept ['['] then
      if depth < depthLimit then return .list (← members fuel (depth + 1)) else fail
    else if ← accept ['\x7b'] then
      if depth < depthLimit then return (← entries fuel (depth + 1) ⟨.written, []⟩).tree else fail
    else word

/-- Read the members of a list up to its closing mark. -/
def members : Nat → Nat → Reader (List Tree)
  | 0, _ => fail
  | fuel + 1, depth => do
    gap
    if ← accept [']'] then return []
    else do
      let first ← value fuel depth
      gap
      if ← accept [','] then return first :: (← members fuel depth)
      else do
        exactly [']']
        return [first]

/-- Read the entries of a table that is written as a value, up to its closing mark. There may be
gaps around the equals sign. -/
def entries : Nat → Nat → Table → Reader Table
  | 0, _, _ => fail
  | fuel + 1, depth, t => do
    gap
    if ← accept ['\x7d'] then return t
    else do
      let (path, last) ← key
      gap
      exactly ['=']
      gap
      let found ← value fuel depth
      let t ← fun text => (t.add path last found).map fun t => (t, text)
      gap
      if ← accept [','] then entries fuel depth t
      else do
        exactly ['\x7d']
        return t

end

/-! ### Lines -/

/-- A document that is being read: its table, and the key of the table that lines add to. -/
structure Draft where
  root : Table := ⟨.opened, []⟩
  current : List String := []

/-- Take over a changed table. -/
def Draft.become (d : Draft) (current : List String) (root : Option Table) : Reader Draft :=
  match root with
  | some root => return { d with root, current }
  | none => fail

/-- Read a line that is a header, or names a value, or neither. -/
def documentLine (d : Draft) : Reader Draft := do
  let _ ← takeAll isSpace
  match ← peek with
  | none => return d
  | some '[' => do
    let ofList ← accept ['[', '[']
    if !ofList then exactly ['[']
    let _ ← takeAll isSpace
    let (path, last) ← key
    exactly (if ofList then [']', ']'] else [']'])
    d.become (path ++ [last])
      (if ofList then d.root.openMember path last else d.root.openTable path last)
  | some c => do
    if c = '#' ∨ c = '\n' ∨ c = '\r' then return d
    else do
      let (path, last) ← key
      exactly ['=']
      let _ ← takeAll isSpace
      let found ← fun text => value (2 * text.length + 2) 0 text
      d.become d.current (d.root.change false (Table.add path last found) d.current)

/-- Read the lines of a document up to its end. -/
def documentLines : Nat → Draft → Reader Table
  | 0, _ => fail
  | fuel + 1, d => do
    let d ← documentLine d
    endOfLine
    if (← peek).isSome then documentLines fuel d else return d.root

/-- Read a document, which a byte order mark may introduce. -/
def document : Reader Table := do
  let _ ← accept ['\uFEFF']
  fun text => documentLines (text.length + 1) {} text

end Reader

/-- The table that a document holds. -/
def Table.ofText? (text : String) : Option Table :=
  (Reader.document text.toList).map Prod.fst

end Wiring.Toml
