import Mathlib.Data.List.TakeWhile
import Mathlib.Tactic.Common
import Wiring.Blank

/-!
# Trimmed texts

A text is trimmed if no blank character stands at either of its ends. Trimming gives the only
trimmed text that the given one consists of but for blank characters around it
(`trim_eq_of_append`, `isTrimmed_trim`).
-/

namespace Wiring.Blank

variable {text before behind : List Char}

/-- No blank character stands at either end. -/
structure IsTrimmed (text : List Char) : Prop where
  first : ∀ c ∈ text.head?, isBlank c = false
  last : ∀ c ∈ text.getLast?, isBlank c = false

/-! ### One end -/

lemma isBlank_of_mem_head?_trimLeft (text : List Char) :
    ∀ c ∈ (trimLeft text).head?, isBlank c = false := by
  intro c hc
  have hhead := List.head?_dropWhile_not isBlank text
  rw [← trimLeft, hc] at hhead
  exact hhead

lemma trimLeft_eq_self (h : ∀ c ∈ text.head?, isBlank c = false) : trimLeft text = text := by
  cases text with
  | nil => rfl
  | cons c rest => rw [trimLeft, List.dropWhile_cons_of_neg (by simp [h c rfl])]

lemma trimLeft_cons {c : Char} {rest : List Char} (hc : isBlank c = true) :
    trimLeft (c :: rest) = trimLeft rest :=
  List.dropWhile_cons_of_pos hc

lemma trimLeft_append (hbefore : before.all isBlank = true) (text : List Char) :
    trimLeft (before ++ text) = trimLeft text :=
  List.dropWhile_append_of_pos (List.all_eq_true.1 hbefore)

lemma isBlank_of_mem_getLast?_append (h : ∀ c ∈ (before ++ text).getLast?, isBlank c = false) :
    ∀ c ∈ text.getLast?, isBlank c = false := by
  intro c hc
  apply h
  rw [List.getLast?_append, hc]
  rfl

lemma trimRight_eq_self (h : ∀ c ∈ text.getLast?, isBlank c = false) : trimRight text = text := by
  have hreverse : trimLeft text.reverse = text.reverse := trimLeft_eq_self (by simpa using h)
  rw [trimRight, ← trimLeft, hreverse, List.reverse_reverse]

lemma trimRight_append (hbehind : behind.all isBlank = true) (text : List Char) :
    trimRight (text ++ behind) = trimRight text := by
  have hreverse : trimLeft (behind.reverse ++ text.reverse) = trimLeft text.reverse :=
    trimLeft_append (by simpa using hbehind) _
  rw [trimRight, ← trimLeft, List.reverse_append, hreverse, trimLeft, trimRight]

/-! ### Both ends -/

/-- What is left when the blank characters at the ends of a text are taken away is what trimming
gives, however they are told from it. -/
theorem trim_eq_of_append (hbefore : before.all isBlank = true)
    (hbehind : behind.all isBlank = true) (htext : IsTrimmed text) :
    trim (before ++ text ++ behind) = text := by
  rw [trim, List.append_assoc, trimLeft_append hbefore]
  cases text with
  | nil =>
    have hnil : trimLeft behind = [] := List.dropWhile_eq_nil_iff.2 (List.all_eq_true.1 hbehind)
    rw [List.nil_append, hnil]
    rfl
  | cons c rest =>
    have hleft : trimLeft (c :: rest ++ behind) = c :: rest ++ behind :=
      trimLeft_eq_self (by simpa using htext.first)
    rw [hleft, trimRight_append hbehind, trimRight_eq_self htext.last]

theorem isTrimmed_trim (text : List Char) : IsTrimmed (trim text) := by
  constructor
  case first =>
    intro c hc
    obtain ⟨behind, _, h⟩ := exists_eq_trimRight_append (trimLeft text)
    apply isBlank_of_mem_head?_trimLeft text
    rw [h, List.head?_append, ← trim, hc]
    rfl
  case last =>
    intro c hc
    rw [trim, trimRight, List.getLast?_reverse] at hc
    exact isBlank_of_mem_head?_trimLeft _ c hc

/-- Blank characters around a text do not matter. -/
lemma trim_append_append (hbefore : before.all isBlank = true)
    (hbehind : behind.all isBlank = true) : trim (before ++ text ++ behind) = trim text := by
  obtain ⟨front, back, hfront, hback, htext⟩ := exists_eq_append_trim text
  calc trim (before ++ text ++ behind)
      = trim ((before ++ front) ++ trim text ++ (back ++ behind)) := by
        conv_lhs => rw [htext]
        simp only [List.append_assoc]
    _ = trim text := trim_eq_of_append (by rw [List.all_append, hbefore, hfront]; rfl)
        (by rw [List.all_append, hback, hbehind]; rfl) (isTrimmed_trim text)

lemma trim_eq_nil_iff : trim text = [] ↔ text.all isBlank = true := by
  constructor
  · intro hnil
    obtain ⟨front, back, hfront, hback, htext⟩ := exists_eq_append_trim text
    rw [htext, hnil, List.append_nil, List.all_append, hfront, hback]
    rfl
  · intro hblank
    have hempty : IsTrimmed [] := ⟨by simp, by simp⟩
    have htrim : trim (text ++ [] ++ []) = [] := trim_eq_of_append hblank rfl hempty
    simpa using htrim

lemma trim_toList_ne_nil {s : String} (h : isBlankText s = false) : trim s.toList ≠ [] := by
  rw [Ne, trim_eq_nil_iff, ← isBlankText, h]
  simp

/-- A text that ends with no blank character is trimmed on the left only. -/
lemma trim_eq_trimLeft (h : ∀ c ∈ text.getLast?, isBlank c = false) :
    trim text = trimLeft text := by
  obtain ⟨before, _, htext⟩ := exists_eq_append_trimLeft text
  rw [htext] at h
  exact trimRight_eq_self (isBlank_of_mem_getLast?_append h)

end Wiring.Blank
