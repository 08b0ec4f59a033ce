import Wiring.Digits
import Wiring.Json.Reader

/-!
# JSON strings

A string stands between quotes. A backslash starts an escape: one of a few letters, or the four
hexadecimal digits of a UTF-16 unit; a character beyond the sixteen-bit range takes two units, a
high and a low surrogate. A string that is only skipped may hold any units.

Writing escapes the quote, the backslash and the control characters, and nothing else.
-/

namespace Wiring.Json

namespace Text

/-! ### Units -/

/-- The unit that the next four hexadecimal digits denote. A text ends early if it has fewer than
four bytes left. -/
def unit : List Char → Except Fault (Nat × List Char)
  | a :: b :: c :: d :: rest =>
    if [a, b, c, d].all (Digits.isDigit 16) then .ok (Digits.number 16 [a, b, c, d], rest)
    else .error .malformed
  | short =>
    .error (if short.foldl (fun n c => n + c.utf8Size) 0 < 4 then .truncated else .malformed)

theorem length_of_unit {text rest : List Char} {n : Nat} (h : unit text = .ok (n, rest)) :
    rest.length < text.length := by
  unfold unit at h
  split at h
  · split at h
    · cases h
      simp only [List.length_cons]
      omega
    · cases h
  · cases h

/-! ### Escapes -/

/-- The first unit of a pair. -/
def isHighSurrogate (n : Nat) : Bool :=
  0xD800 ≤ n && n ≤ 0xDBFF

/-- The second unit of a pair. -/
def isLowSurrogate (n : Nat) : Bool :=
  0xDC00 ≤ n && n ≤ 0xDFFF

/-- The character of a pair of units. -/
def ofSurrogates (high low : Nat) : Char :=
  Char.ofNat ((high - 0xD800) * 0x400 + (low - 0xDC00) + 0x10000)

/-- The character of a high surrogate and the low one that has to follow. -/
def pairedWith (high : Nat) (text : List Char) : Except Fault (Char × List Char) :=
  match afterMarks ['\\', 'u'] text with
  | .ok text =>
    match unit text with
    | .ok (low, rest) =>
      if isLowSurrogate low then .ok (ofSurrogates high low, rest) else .error .malformed
    | .error fault => .error fault
  | .error fault => .error fault

/-- The character of the unit that follows, or of the pair of units. -/
def ofUnits (strict : Bool) (text : List Char) : Except Fault (Char × List Char) :=
  match unit text with
  | .ok (n, rest) =>
    if !strict then .ok (Char.ofNat n, rest)
    else if isLowSurrogate n then .error .malformed
    else if isHighSurrogate n then pairedWith n rest
    else .ok (Char.ofNat n, rest)
  | .error fault => .error fault

/-- The letters that escape one character, with that character. -/
def shortEscapes : List (Char × Char) :=
  [('"', '"'), ('\\', '\\'), ('/', '/'), ('b', '\x08'), ('f', '\x0c'), ('n', '\n'), ('r', '\r'),
   ('t', '\t')]

/-- The character of an escape, behind its backslash. -/
def escape (strict : Bool) : List Char → Except Fault (Char × List Char)
  | [] => .error .truncated
  | 'u' :: rest => ofUnits strict rest
  | c :: rest =>
    match shortEscapes.lookup c with
    | some meant => .ok (meant, rest)
    | none => .error .malformed

theorem length_of_pairedWith {high : Nat} {text rest : List Char} {c : Char}
    (h : pairedWith high text = .ok (c, rest)) : rest.length < text.length := by
  unfold pairedWith at h
  split at h
  · next hmarks =>
    have hle := length_of_afterMarks hmarks
    split at h
    · next hunit =>
      split at h
      · simp only [Except.ok.injEq, Prod.mk.injEq] at h
        exact h.2 ▸ Nat.lt_of_lt_of_le (length_of_unit hunit) hle
      · cases h
    · cases h
  · cases h

theorem length_of_ofUnits {strict : Bool} {text rest : List Char} {c : Char}
    (h : ofUnits strict text = .ok (c, rest)) : rest.length < text.length := by
  unfold ofUnits at h
  split at h
  · next hunit =>
    have hlt := length_of_unit hunit
    split at h
    · cases h; exact hlt
    · split at h
      · cases h
      · split at h
        · exact Nat.lt_trans (length_of_pairedWith h) hlt
        · cases h; exact hlt
  · cases h

theorem length_of_escape {strict : Bool} {text rest : List Char} {c : Char}
    (h : escape strict text = .ok (c, rest)) : rest.length < text.length := by
  unfold escape at h
  split at h
  · cases h
  · have := length_of_ofUnits h
    simp only [List.length_cons]
    omega
  · split at h
    · cases h; simp
    · cases h

/-! ### Strings -/

/-- The characters of a string up to its closing quote, and the text behind that. -/
def scan (strict : Bool) (text : List Char) : Except Fault (List Char × List Char) :=
  match text with
  | [] => .error .truncated
  | c :: rest =>
    if c = '"' then .ok ([], rest)
    else if c = '\\' then
      match h : escape strict rest with
      | .ok (meant, behind) =>
        have := length_of_escape h
        (scan strict behind).map fun (found, after) => (meant :: found, after)
      | .error fault => .error fault
    else if c < ' ' then .error .malformed
    else (scan strict rest).map fun (found, after) => (c :: found, after)
termination_by text.length

/-! ### Writing -/

/-- A character as it is written within a string. -/
def encodeChar (c : Char) : List Char :=
  match c with
  | '"' => ['\\', '"']
  | '\\' => ['\\', '\\']
  | '\x08' => ['\\', 'b']
  | '\x0c' => ['\\', 'f']
  | '\n' => ['\\', 'n']
  | '\r' => ['\\', 'r']
  | '\t' => ['\\', 't']
  | c =>
    if c < ' ' then ['\\', 'u', '0', '0', Digits.digit (c.toNat / 16), Digits.digit (c.toNat % 16)]
    else [c]

/-- A string with its quotes. -/
def encode (s : String) : List Char :=
  '"' :: (s.toList.flatMap encodeChar ++ ['"'])

end Text

/-! ### Readers -/

namespace Reader

/-- Read the rest of a string behind its opening quote. -/
def stringRest : Reader String := fun text =>
  match Text.scan true text with
  | .ok (found, rest) => .ok (String.ofList found, rest)
  | .error fault => .error fault

/-- Skip the rest of a string behind its opening quote. -/
def skipStringRest : Reader Unit := fun text =>
  match Text.scan false text with
  | .ok (_, rest) => .ok ((), rest)
  | .error fault => .error fault

end Reader

end Wiring.Json
