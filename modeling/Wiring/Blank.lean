/-!
# Blank characters

The characters of the Unicode property `White_Space`, and the trimming of texts at both ends.
Trimming keeps everything between the first and the last character that is not blank
(`exists_eq_append_trim`).
-/

namespace Wiring.Blank

/-! ### The property -/

/-- The blank characters as closed ranges of code points. -/
def ranges : List (Nat × Nat) :=
  [(0x0009, 0x000D), (0x0020, 0x0020), (0x0085, 0x0085), (0x00A0, 0x00A0), (0x1680, 0x1680),
   (0x2000, 0x200A), (0x2028, 0x2029), (0x202F, 0x202F), (0x205F, 0x205F), (0x3000, 0x3000)]

/-- Whether a character is blank. -/
def isBlank (c : Char) : Bool :=
  ranges.any fun range => range.1 ≤ c.toNat && c.toNat ≤ range.2

theorem isBlank_of_isWhitespace {c : Char} (h : c.isWhitespace = true) : isBlank c = true := by
  simp only [Char.isWhitespace, Bool.or_eq_true, decide_eq_true_eq] at h
  rcases h with ((h | h) | h) | h <;> subst h <;> decide

/-! ### Trimming -/

/-- The text without its leading blank characters. -/
def trimLeft (text : List Char) : List Char :=
  text.dropWhile isBlank

/-- The text without its trailing blank characters. -/
def trimRight (text : List Char) : List Char :=
  (text.reverse.dropWhile isBlank).reverse

/-- The text without the blank characters at either end. -/
def trim (text : List Char) : List Char :=
  trimRight (trimLeft text)

/-- Whether a text holds nothing but blank characters. -/
def isBlankText (text : String) : Bool :=
  text.toList.all isBlank

theorem exists_eq_append_trimLeft (text : List Char) :
    ∃ before, before.all isBlank = true ∧ text = before ++ trimLeft text :=
  ⟨text.takeWhile isBlank, List.all_takeWhile, (List.takeWhile_append_dropWhile ..).symm⟩

theorem exists_eq_trimRight_append (text : List Char) :
    ∃ behind, behind.all isBlank = true ∧ text = trimRight text ++ behind := by
  obtain ⟨behind, hblank, h⟩ := exists_eq_append_trimLeft text.reverse
  refine ⟨behind.reverse, by simpa using hblank, ?_⟩
  have := congrArg List.reverse h
  simpa [trimRight, trimLeft] using this

/-- Trimming removes blank characters at the two ends and nothing else. -/
theorem exists_eq_append_trim (text : List Char) :
    ∃ before behind, before.all isBlank = true ∧ behind.all isBlank = true ∧
      text = before ++ trim text ++ behind := by
  obtain ⟨before, hbefore, h⟩ := exists_eq_append_trimLeft text
  obtain ⟨behind, hbehind, h'⟩ := exists_eq_trimRight_append (trimLeft text)
  refine ⟨before, behind, hbefore, hbehind, ?_⟩
  rw [List.append_assoc, trim, ← h', ← h]

end Wiring.Blank
