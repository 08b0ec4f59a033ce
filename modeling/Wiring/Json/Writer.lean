import Wiring.Json.Text

/-!
# Writing JSON

Documents are written without gaps. Each function here writes one shape; its counterpart among
the readers takes it off the front of a text again.
-/

namespace Wiring.Json.Writer

/-- Parts with commas in between. -/
def commaSeparated : List (List Char) → List Char
  | [] => []
  | [part] => part
  | part :: parts => part ++ ',' :: commaSeparated parts

/-- A list of written values. -/
def list (members : List (List Char)) : List Char :=
  '[' :: (commaSeparated members ++ [']'])

/-- A record of named written values. -/
def record (fields : List (String × List Char)) : List Char :=
  '\x7b' :: (commaSeparated (fields.map fun field => Text.encode field.1 ++ ':' :: field.2)
    ++ ['\x7d'])

/-- A list of strings. -/
def strings (values : List String) : List Char :=
  list (values.map Text.encode)

/-- A field that is left out if there is no value. -/
def whenSome (name : String) (value : Option String) : List (String × List Char) :=
  match value with
  | some value => [(name, Text.encode value)]
  | none => []

end Wiring.Json.Writer
