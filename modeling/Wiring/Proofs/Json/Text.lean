import Mathlib.Tactic.Common
import Wiring.Json.Text

/-!
# Strings that were written

Every character is written in a way that is read as that character: as itself, or as an escape. So
what is read behind the opening quote is the string that was written, and what stands behind its
closing quote is left (`scan_flatMap_encodeChar`).
-/

namespace Wiring.Json.Text

variable {c : Char} {rest behind : List Char}

/-! ### Steps of a scan -/

lemma scan_quote (strict : Bool) (rest : List Char) :
    scan strict ('"' :: rest) = .ok ([], rest) := by
  rw [scan, if_pos rfl]

lemma scan_escape {strict : Bool} (h : escape strict rest = .ok (c, behind)) :
    scan strict ('\\' :: rest) =
      (scan strict behind).map fun (found, after) => (c :: found, after) := by
  rw [scan, if_neg (by decide), if_pos rfl]
  split
  · next heq =>
    obtain ⟨rfl, rfl⟩ : c = _ ∧ behind = _ := by simpa [h] using heq
    rfl
  · next heq => simp [h] at heq

lemma scan_plain {strict : Bool} (hquote : c ≠ '"') (hbackslash : c ≠ '\\') (hcontrol : ¬ c < ' ') :
    scan strict (c :: rest) = (scan strict rest).map fun (found, after) => (c :: found, after) := by
  rw [scan, if_neg hquote, if_neg hbackslash, if_neg hcontrol]

/-! ### Control characters -/

/-- The unit of a control character is read as that character. -/
lemma escape_control (hc : c < ' ') (rest : List Char) :
    escape true ('u' :: '0' :: '0' :: Digits.digit (c.toNat / 16) :: Digits.digit (c.toNat % 16) ::
      rest) = .ok (c, rest) := by
  have hcode : c.toNat < 32 := hc
  have hhigh : c.toNat / 16 < 16 := by omega
  have hlow : c.toNat % 16 < 16 := by omega
  have hnumber : Digits.number 16
      ['0', '0', Digits.digit (c.toNat / 16), Digits.digit (c.toNat % 16)] = c.toNat := by
    have hzero : Digits.value '0' = 0 := by decide
    simp only [Digits.number, List.foldl_cons, List.foldl_nil, hzero, Digits.value_digit hhigh,
      Digits.value_digit hlow]
    omega
  have hunit : unit ('0' :: '0' :: Digits.digit (c.toNat / 16) :: Digits.digit (c.toNat % 16) ::
      rest) = .ok (c.toNat, rest) := by
    have hzero : Digits.isDigit 16 '0' = true := by decide
    rw [unit, hnumber, if_pos]
    simp [hzero, Digits.isDigit_digit hhigh, Digits.isDigit_digit hlow]
  have hsingle : isLowSurrogate c.toNat = false ∧ isHighSurrogate c.toNat = false := by
    simp only [isLowSurrogate, isHighSurrogate, Bool.and_eq_false_iff, decide_eq_false_iff_not]
    omega
  simp [escape, ofUnits, hunit, hsingle, Char.ofNat_toNat]

/-! ### Strings -/

/-- A character that was written is read back. -/
lemma scan_encodeChar (c : Char) (rest : List Char) : scan true (encodeChar c ++ rest) =
    (scan true rest).map fun (found, after) => (c :: found, after) := by
  unfold encodeChar
  split
  case h_8 hquote hbackslash _ _ _ _ _ =>
    split
    · next hcontrol => exact scan_escape (escape_control hcontrol rest)
    · next hcontrol => exact scan_plain hquote hbackslash hcontrol
  all_goals exact scan_escape rfl

/-- A string that was written is read back, up to its closing quote. -/
theorem scan_flatMap_encodeChar (chars rest : List Char) :
    scan true (chars.flatMap encodeChar ++ '"' :: rest) = .ok (chars, rest) := by
  induction chars with
  | nil => exact scan_quote true rest
  | cons c chars ih =>
    rw [List.flatMap_cons, List.append_assoc, scan_encodeChar, ih]
    rfl

end Wiring.Json.Text
