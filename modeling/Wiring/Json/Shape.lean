import Wiring.Json.Skip

/-!
# Reading values of a shape

Readers for the shapes of which documents consist: strings, values that may be null, lists, words
from a fixed choice, and records. A record is written with the names of its fields, in any order,
or as a list of their values, in the order of the fields.
-/

namespace Wiring.Json.Reader

variable {α σ : Type}

/-! ### Single values -/

/-- Refuse the value that comes next, whose first character is given, for its type. A word, number
or string is read to its end, as it may not even be one. -/
def mismatch (first : Char) : Reader α := do
  if first = '[' ∨ first = '\x7b' then fail .mismatched
  else if first = 'n' then exactly ['n', 'u', 'l', 'l']
  else if first = 't' then exactly ['t', 'r', 'u', 'e']
  else if first = 'f' then exactly ['f', 'a', 'l', 's', 'e']
  else if first = '"' then do step; let _ ← stringRest
  else if first = '-' ∨ first.isDigit then number
  else fail .malformed
  fail .mismatched

/-- Read a string. -/
def string : Reader String := do
  let first ← look
  if first = '"' then do step; stringRest else mismatch first

/-- Read a value that may be null. -/
def optional (value : Reader α) : Reader (Option α) := do
  if (← look) = 'n' then do exactly ['n', 'u', 'l', 'l']; return none
  else return some (← value)

/-! ### Lists -/

/-- Whether a list has another member. `start` tells that none has been read. -/
def hasMember (start : Bool) : Reader Bool := do
  let next ← look
  if next = ']' then return false
  else if start then return true
  else if next = ',' then do
    step
    if (← look) = ']' then fail .malformed else return true
  else fail .malformed

/-- Read the members of a list up to its closing mark. -/
def members (member : Reader α) : Nat → Bool → Reader (List α)
  | 0, _ => fail .truncated
  | fuel + 1, start => do
    if ← hasMember start then
      let first ← member
      let others ← members member fuel false
      return first :: others
    else do step; return []

/-- Read a list. -/
def list (member : Reader α) : Reader (List α) := do
  let first ← look
  if first = '[' then do
    step
    fun text => members member (text.length + 1) true text
  else mismatch first

/-! ### Words from a fixed choice -/

/-- Read a word that stands for one of the given values. -/
def choiceName (choices : List (String × α)) : Reader α := do
  let name ← string
  match choices.lookup name with
  | some value => return value
  | none => fail (.unknownVariant name (choices.map Prod.fst))

/-- Read null. -/
def null : Reader Unit := do
  let first ← look
  if first = 'n' then exactly ['n', 'u', 'l', 'l'] else mismatch first

/-- Read a word that stands for one of the given values, alone or as the name of a single field
whose value is null. -/
def choice (choices : List (String × α)) : Reader α := do
  let first ← look
  if first = '"' then choiceName choices
  else if first = '\x7b' then do
    step
    if (← look) = '"' then do
      let value ← choiceName choices
      colon
      null
      if (← look) = '\x7d' then do step; return value else fail .malformed
    else fail .malformed
  else fail .malformed

/-! ### Records -/

/-- A field of a record that is being read into a value of type `σ`. -/
structure Field (σ : Type) where
  name : String
  required : Bool
  /-- Read the value of the field and put it into the record. -/
  read : σ → Reader σ

namespace Field

/-- A field that every record has. -/
def needed (name : String) (value : Reader α) (put : σ → α → σ) : Field σ :=
  ⟨name, true, fun s => do return put s (← value)⟩

/-- A field that may be left out. -/
def spare (name : String) (value : Reader α) (put : σ → α → σ) : Field σ :=
  ⟨name, false, fun s => do return put s (← value)⟩

end Field

/-- Read the values of fields in their order, up to the closing mark of the list. Fields at the
end may be missing if they may be left out; nothing may follow the last one. -/
def valuesInOrder : Bool → List (Field σ) → σ → Reader σ
  | _, [], s => do
    if (← look) = ']' then do step; return s else fail .malformed
  | start, field :: fields, s => do
    if ← hasMember start then do
      let s ← field.read s
      valuesInOrder false fields s
    else if field.required then fail .mismatched
    else valuesInOrder start fields s

/-- Whether a record has another field. `start` tells that none has been read. -/
def hasField (start : Bool) : Reader Bool := do
  let next ← look
  if next = '\x7d' then return false
  else if start then if next = '"' then return true else fail .malformed
  else if next = ',' then do
    step
    if (← look) = '"' then return true else fail .malformed
  else fail .malformed

/-- Read named fields up to the closing mark of the record. Names that are not known are passed
over, with their values. `seen` holds the names of the fields that have been read. -/
def namedFields (fields : List (Field σ)) : Nat → Bool → List String → σ → Reader σ
  | 0, _, _, _ => fail .truncated
  | fuel + 1, start, seen, s => do
    if ← hasField start then do
      let name ← string
      match fields.find? (·.name == name) with
      | some field =>
        if seen.contains name then fail (.repeatedField name)
        else do
          colon
          let s ← field.read s
          namedFields fields fuel false (name :: seen) s
      | none => do
        colon
        skipValue
        namedFields fields fuel false seen s
    else
      match fields.find? fun field => field.required && !seen.contains field.name with
      | some field => fail (.missingField field.name)
      | none => do step; return s

/-- Read a record. What it leaves out is as in `blank`; a required field never is. -/
def record (blank : σ) (fields : List (Field σ)) : Reader σ := do
  let first ← look
  if first = '[' then do
    step
    valuesInOrder true fields blank
  else if first = '\x7b' then do
    step
    fun text => namedFields fields (text.length + 1) true [] blank text
  else mismatch first

end Wiring.Json.Reader
