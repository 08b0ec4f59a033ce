import Wiring.Json.Numeral
import Wiring.Json.Text

/-!
# Values of no interest

The value of an unknown field is skipped. It still has to be JSON, but it may be nested to any
depth and its numbers may have any size. The lists and records that are open are kept on a stack.
-/

namespace Wiring.Json

/-- A list or record that has been opened. -/
inductive Frame
  | list
  | record
deriving DecidableEq, Repr

/-- The mark that closes a list or record. -/
def Frame.closing : Frame → Char
  | .list => ']'
  | .record => '\x7d'

namespace Reader

/-- Skip the name and the colon in front of the value of a record's field. -/
def skipName : Reader Unit := do
  if (← look) = '"' then do step; skipStringRest; colon else fail .malformed

/-- Skip what stands in front of a member of a list or record. -/
def skipToMember : Frame → Reader Unit
  | .list => pure ()
  | .record => skipName

/-- Skip a value that is neither a list nor a record, whose first character is given. -/
def skipScalar (first : Char) : Reader Unit :=
  if first = 'n' then exactly ['n', 'u', 'l', 'l']
  else if first = 't' then exactly ['t', 'r', 'u', 'e']
  else if first = 'f' then exactly ['f', 'a', 'l', 's', 'e']
  else if first = '"' then do step; skipStringRest
  else if first = '-' ∨ first.isDigit then skipNumber
  else fail .malformed

/-- Where a reader stands among the values that it skips. -/
inductive Place
  /-- In front of a value. -/
  | before
  /-- Behind a value. -/
  | behind
  /-- Behind the mark that opens a list or record. -/
  | opened
deriving DecidableEq, Repr

/-- Skip to the end of the outermost of some open lists and records. -/
def skipOut : Nat → Place → List Frame → Reader Unit
  | 0, _, _ => fail .truncated
  | _ + 1, .behind, [] => pure ()
  | fuel + 1, .before, frames => do
    let first ← look
    if first = '[' then do step; skipOut fuel .opened (.list :: frames)
    else if first = '\x7b' then do step; skipOut fuel .opened (.record :: frames)
    else do skipScalar first; skipOut fuel .behind frames
  | fuel + 1, .behind, frame :: frames => do
    let next ← look
    if next = ',' then do step; skipToMember frame; skipOut fuel .before (frame :: frames)
    else if next = frame.closing then do step; skipOut fuel .behind frames
    else fail .malformed
  | _ + 1, .opened, [] => fail .malformed
  | fuel + 1, .opened, frame :: frames => do
    if (← look) = frame.closing then do step; skipOut fuel .behind frames
    else do skipToMember frame; skipOut fuel .before (frame :: frames)

/-- Skip one value. Every second step at least takes a character. -/
def skipValue : Reader Unit := fun text =>
  skipOut (2 * text.length + 3) .before [] text

end Reader

end Wiring.Json
