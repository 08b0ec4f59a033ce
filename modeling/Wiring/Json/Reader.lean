/-!
# Reading JSON

A reader takes a value off the front of a text and leaves the rest, or refuses the text at the
first thing that is wrong with it. Values are read straight into the type that is wanted, so
that a document of the wrong shape is refused where its shape goes wrong, even if the text is
not JSON further on.
-/

namespace Wiring.Json

/-! ### Faults -/

/-- Why a text is refused. -/
inductive Fault
  /-- The text is not JSON. -/
  | malformed
  /-- The text ends early. -/
  | truncated
  /-- A value is not of the type that is wanted. -/
  | mismatched
  /-- A record lacks a required field. -/
  | missingField (name : String)
  /-- A name is none of the known ones. -/
  | unknownVariant (name : String) (known : List String)
  /-- A record has a field twice. -/
  | repeatedField (name : String)
deriving DecidableEq, Repr

/-- What a fault concerns. -/
inductive Category
  /-- The text itself. -/
  | form
  /-- The shape of its values. -/
  | shape
  /-- Its early end. -/
  | ending
deriving DecidableEq, Repr

namespace Fault

/-- What the fault concerns. -/
def category : Fault → Category
  | .malformed => .form
  | .truncated => .ending
  | _ => .shape

/-- A name in the marks that set it apart in a message. -/
def quoted (name : String) : String :=
  "`" ++ name ++ "`"

/-- The message for the user, for the faults that name something of the document. -/
def message? : Fault → Option String
  | .missingField name => some ("missing field " ++ quoted name)
  | .unknownVariant name known =>
    some ("unknown variant " ++ quoted name ++ ", expected one of "
      ++ ", ".intercalate (known.map quoted))
  | .repeatedField name => some ("duplicate field " ++ quoted name)
  | _ => none

end Fault

/-! ### Readers -/

/-- A reader of values of some type. -/
abbrev Reader (α : Type) := StateT (List Char) (Except Fault) α

/-- Whether a character may stand between the parts of a document. -/
def isGap (c : Char) : Bool :=
  c == ' ' || c == '\n' || c == '\t' || c == '\r'

/-- What follows the given characters, which have to come next. -/
def afterMarks : List Char → List Char → Except Fault (List Char)
  | [], text => .ok text
  | _ :: _, [] => .error .truncated
  | mark :: marks, c :: rest => if c = mark then afterMarks marks rest else .error .malformed

theorem length_of_afterMarks {marks text rest : List Char} (h : afterMarks marks text = .ok rest) :
    rest.length ≤ text.length := by
  induction marks generalizing text with
  | nil => cases h; exact Nat.le_refl _
  | cons mark marks ih =>
    cases text with
    | nil => cases h
    | cons c text =>
      simp only [afterMarks] at h
      split at h
      · exact Nat.le_succ_of_le (ih h)
      · cases h

namespace Reader

/-- Refuse the text. -/
def fail {α : Type} (fault : Fault) : Reader α :=
  fun _ => .error fault

/-- Skip the gap before the next part, which has to be there, and look at its first character. -/
def look : Reader Char := fun text =>
  match text.dropWhile isGap with
  | [] => .error .truncated
  | c :: rest => .ok (c, c :: rest)

/-- Step over one character. -/
def step : Reader Unit := fun text => .ok ((), text.tail)

/-- Read the given characters. -/
def exactly (marks : List Char) : Reader Unit := fun text =>
  (afterMarks marks text).map fun rest => ((), rest)

/-- Read the colon between the name and the value of a field. -/
def colon : Reader Unit := do
  if (← look) = ':' then step else fail .malformed

/-- The outcome of reading a whole document: behind its value there are only gaps. -/
def run {α : Type} (reader : Reader α) (text : String) : Except Fault α :=
  match reader text.toList with
  | .ok (value, rest) => if rest.all isGap then .ok value else .error .malformed
  | .error fault => .error fault

end Reader

end Wiring.Json
