/-!
# TOML tables

A TOML document is a table of named values. A table can be opened in several ways, and how it was
opened tells what may still be added to it:

* a table that a header opens may be opened by one header only;
* a table that a header merely passes through may still be opened by a header;
* a table that the dots of a key open may only be added to by dots;
* a table that is written as a value is complete.

A header or key that passes through a list of opened tables means the last one.
-/

namespace Wiring.Toml

/-- How a table was opened. -/
inductive Origin
  /-- By a header, or as the table of the whole document. -/
  | opened
  /-- On the way of a header to another table. -/
  | passed
  /-- By the dots of a key. -/
  | dotted
  /-- As a value. -/
  | written
deriving DecidableEq, Repr

/-- A TOML value, or a table that is still growing. -/
inductive Tree
  | text (value : String)
  | integer (value : Int)
  /-- A number with a fraction or exponent. -/
  | float
  /-- A number beyond all ranges, or one whose digits mean nothing. It does not harm a document
  in which nobody asks for its value. -/
  | unreadable
  | boolean (value : Bool)
  /-- A date, a time, or both. -/
  | moment
  /-- A list that is written as a value. -/
  | list (members : List Tree)
  /-- A list whose members headers open. -/
  | tables (members : List Tree)
  | table (origin : Origin) (entries : List (String × Tree))
deriving Repr

/-- A table with the way in which it was opened. -/
structure Table where
  origin : Origin
  entries : List (String × Tree) := []
deriving Repr

namespace Table

/-- The table as a value. -/
def tree (t : Table) : Tree :=
  .table t.origin t.entries

/-- Replace the value of a key, or add it at the end. -/
def put (t : Table) (key : String) (value : Tree) : Table :=
  if t.entries.any (·.1 == key) then
    { t with entries := t.entries.map fun e => if e.1 = key then (key, value) else e }
  else { t with entries := t.entries ++ [(key, value)] }

/-- Whether the way from a table to one of its tables may be taken. -/
def mayPass (byDots : Bool) : Origin → Bool
  | .opened => !byDots
  | .passed => true
  | .dotted => true
  | .written => false

/-- Change the table at the end of a path, opening the tables on the way that are missing. -/
def change (byDots : Bool) (f : Table → Option Table) : List String → Table → Option Table
  | [], t => f t
  | key :: path, t =>
    match t.entries.lookup key with
    | none =>
      (change byDots f path ⟨if byDots then .dotted else .passed, []⟩).map fun inner =>
        t.put key inner.tree
    | some (.table origin entries) =>
      if mayPass byDots origin then
        (change byDots f path ⟨origin, entries⟩).map fun inner => t.put key inner.tree
      else none
    | some (.tables members) =>
      match members.getLast? with
      | some (.table origin entries) =>
        (change byDots f path ⟨origin, entries⟩).map fun inner =>
          t.put key (.tables (members.dropLast ++ [inner.tree]))
      | _ => none
    | some _ => none

/-- Add a value under a key. A key with dots adds to a table that dots have opened, a key
without them to one that they have not. -/
def add (path : List String) (key : String) (value : Tree) : Table → Option Table :=
  change true (fun t =>
    if (t.origin == .dotted) == path.isEmpty then none
    else if t.entries.any (·.1 == key) then none
    else some { t with entries := t.entries ++ [(key, value)] }) path

/-- Open the table that a header names. -/
def openTable (path : List String) (key : String) : Table → Option Table :=
  change false (fun t =>
    match t.entries.lookup key with
    | none => some (t.put key (.table .opened []))
    | some (.table .passed entries) => some (t.put key (.table .opened entries))
    | some _ => none) path

/-- Open another table of the list that a header names. -/
def openMember (path : List String) (key : String) : Table → Option Table :=
  change false (fun t =>
    match t.entries.lookup key with
    | none => some (t.put key (.tables [.table .opened []]))
    | some (.tables members) => some (t.put key (.tables (members ++ [.table .opened []])))
    | some _ => none) path

end Table

/-! ### Numbers -/

/-- The least number that takes more than the given number of bits. -/
def beyondBits (bits : Nat) : Int :=
  Int.ofNat (Nat.pow 2 bits)

/-- An integer as a value. Integers have 128 bits, the first of which may be a sign. -/
def Tree.ofInt (value : Int) : Tree :=
  if -beyondBits 127 ≤ value ∧ value < beyondBits 128 then .integer value else .unreadable

mutual

/-- Whether all numbers of a value are readable. -/
def Tree.isReadable : Tree → Bool
  | .unreadable => false
  | .list members => Tree.areReadable members
  | .tables members => Tree.areReadable members
  | .table _ entries => Tree.holdsReadable entries
  | _ => true

/-- Whether all numbers of some values are readable. -/
def Tree.areReadable : List Tree → Bool
  | [] => true
  | member :: members => member.isReadable && Tree.areReadable members

/-- Whether all numbers of some named values are readable. -/
def Tree.holdsReadable : List (String × Tree) → Bool
  | [] => true
  | (_, value) :: entries => value.isReadable && Tree.holdsReadable entries

end

end Wiring.Toml
