import Mathlib.Tactic.Common
import Wiring.Layout

/-!
# Sections of the generated text

Every section of the text has lines, so the text is empty just if it has no section. One more
section is therefore set apart by an empty line unless it is the only one (`layout_append`).
-/

namespace Wiring

/-! ### Lines and blocks -/

lemma textOfLines_cons (line : String) (lines : List String) :
    textOfLines (line :: lines) = line ++ "\n" ++ textOfLines lines := by
  rw [textOfLines, List.map_cons, String.join_cons]
  rfl

lemma textOfLines_append (lines lines' : List String) :
    textOfLines (lines ++ lines') = textOfLines lines ++ textOfLines lines' := by
  rw [textOfLines, List.map_append, String.join_append]
  rfl

lemma textOfLines_eq_empty_iff {lines : List String} : textOfLines lines = "" ↔ lines = [] := by
  cases lines with
  | nil => simp [textOfLines]
  | cons line lines => simp [textOfLines_cons, String.append_eq_empty_iff]

variable {blocks : List (List String)}

@[simp] lemma separated_nil : separated [] = [] :=
  rfl

@[simp] lemma separated_singleton (block : List String) : separated [block] = block := by
  simp [separated]

lemma separated_cons (block : List String) (hblocks : blocks ≠ []) :
    separated (block :: blocks) = block ++ "" :: separated blocks := by
  rw [separated, List.intercalate_cons_of_ne_nil hblocks, List.append_assoc]
  rfl

lemma separated_append {blocks' : List (List String)} (hblocks : blocks ≠ [])
    (hblocks' : blocks' ≠ []) :
    separated (blocks ++ blocks') = separated blocks ++ "" :: separated blocks' := by
  induction blocks with
  | nil => exact absurd rfl hblocks
  | cons first rest ih =>
    by_cases hrest : rest = []
    · rw [hrest, List.singleton_append, separated_cons first hblocks', separated_singleton]
    · rw [List.cons_append, separated_cons first (by simp [hrest]), ih hrest,
        separated_cons first hrest, List.append_assoc, List.cons_append]

lemma separated_append_singleton (hblocks : blocks ≠ []) (block : List String) :
    separated (blocks ++ [block]) = separated blocks ++ "" :: block := by
  rw [separated_append hblocks (List.cons_ne_nil block []), separated_singleton]

lemma separated_ne_nil (hblocks : blocks ≠ []) (hlines : ∀ block ∈ blocks, block ≠ []) :
    separated blocks ≠ [] := by
  obtain ⟨first, rest, rfl⟩ := List.exists_cons_of_ne_nil hblocks
  cases rest with
  | nil => simpa [separated] using hlines
  | cons second rest => simp [separated, List.intercalate_cons_cons]

/-! ### Sections -/

namespace LayoutOptions

variable (o : LayoutOptions) (markers : Markers) (imports : List String) (outlines : List Outline)

/-- The lines of each section of the text. -/
def sections : List (List String) :=
  o.importBlocks imports ++ o.preambleBlocks markers ++ outlines.map o.resolverLines

lemma ne_nil_of_mem_sections {block : List String}
    (hblock : block ∈ o.sections markers imports outlines) : block ≠ [] := by
  simp only [sections, List.mem_append, importBlocks, preambleBlocks] at hblock
  rcases hblock with (himports | hpreamble) | hresolver
  · split at himports
    · next hwanted =>
      rw [List.mem_singleton.1 himports]
      simpa using (Bool.and_eq_true_iff.1 hwanted).2
    · cases himports
  · split at hpreamble
    · obtain ⟨marker, _, rfl⟩ := List.mem_map.1 hpreamble
      exact List.cons_ne_nil _ _
    · cases hpreamble
  · obtain ⟨r, _, rfl⟩ := List.mem_map.1 hresolver
    simp [resolverLines, interfaceLines]

end LayoutOptions

/-- A text with one more section, which an empty line sets apart from what is there. -/
def addSection (text : String) (lines : List String) : String :=
  text ++ (if text = "" then "" else "\n") ++ textOfLines lines

/-- The resolver that comes last has the last section, and the rest of the text is as without it. -/
theorem layout_append (o : LayoutOptions) (markers : Markers) (imports : List String)
    (outlines : List Outline) (r : Outline) :
    layout o markers imports (outlines ++ [r]) =
      addSection (layout o markers imports outlines) (o.resolverLines r) := by
  have hdocument : ∀ outlines, o.documentLines markers imports outlines =
      separated (o.sections markers imports outlines) := fun _ => rfl
  have hsections : o.sections markers imports (outlines ++ [r]) =
      o.sections markers imports outlines ++ [o.resolverLines r] := by
    simp [LayoutOptions.sections]
  simp only [layout, addSection, hdocument, hsections]
  by_cases hempty : o.sections markers imports outlines = []
  · simp [hempty, separated, textOfLines]
  · have hlines : separated (o.sections markers imports outlines) ≠ [] :=
      separated_ne_nil hempty fun _ => o.ne_nil_of_mem_sections markers imports outlines
    rw [separated_append_singleton hempty, if_neg (mt textOfLines_eq_empty_iff.1 hlines),
      textOfLines_append, textOfLines_cons, String.empty_append, String.append_assoc]

end Wiring
