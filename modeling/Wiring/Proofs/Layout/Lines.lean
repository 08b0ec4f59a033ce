import Wiring.Proofs.Layout.Sections
import Wiring.Proofs.Spelling

/-!
# The lines of a text

A text that is put together from lines falls into the same lines again, as long as no line holds a
line break (`linesOf_textOfLines`). Of strings without line breaks only such lines are made
(`isOneLine_of_mem_resolverLines`).
-/

namespace Wiring

variable {line s t : String} {lines lines' : List String} {blocks : List (List String)}

/-! ### Line breaks -/

/-- A string without line breaks. -/
def IsOneLine (s : String) : Prop :=
  '\n' ∉ s.toList

instance : DecidablePred IsOneLine := fun s => inferInstanceAs (Decidable ('\n' ∉ s.toList))

@[simp] lemma isOneLine_append : IsOneLine (s ++ t) ↔ IsOneLine s ∧ IsOneLine t := by
  simp [IsOneLine, not_or]

lemma isOneLine_intercalate {parts : List String} (hs : IsOneLine s)
    (hparts : ∀ part ∈ parts, IsOneLine part) : IsOneLine (s.intercalate parts) := by
  induction parts with
  | nil => simp [IsOneLine]
  | cons part parts ih =>
    obtain ⟨hpart, hparts⟩ := List.forall_mem_cons.1 hparts
    cases parts with
    | nil => simpa [IsOneLine] using hpart
    | cons second parts =>
      rw [String.intercalate_cons_cons, isOneLine_append, isOneLine_append]
      exact ⟨⟨hpart, hs⟩, ih hparts⟩

/-- The lines of a text, each of which ends with a line break. -/
def linesOf (text : String) : List String :=
  (text.toList.splitOn '\n').dropLast.map String.ofList

lemma splitOn_textOfLines (hlines : ∀ line ∈ lines, IsOneLine line) :
    (textOfLines lines).toList.splitOn '\n' = lines.map String.toList ++ [[]] := by
  induction lines with
  | nil => simp [textOfLines]
  | cons line lines ih =>
    obtain ⟨hline, hlines⟩ := List.forall_mem_cons.1 hlines
    have htext : (textOfLines (line :: lines)).toList =
        line.toList ++ '\n' :: (textOfLines lines).toList := by
      simp [textOfLines_cons]
    rw [htext, List.splitOn_eq_splitOnP, List.splitOnP_append_cons_of_forall_mem _ '\n' (by simp),
      ← List.splitOn_eq_splitOnP, ih hlines]
    · rfl
    · rintro c hc
      simpa using fun heq : c = '\n' => hline (heq ▸ hc)

/-- Lines without line breaks are the lines of their text. -/
theorem linesOf_textOfLines (hlines : ∀ line ∈ lines, IsOneLine line) :
    linesOf (textOfLines lines) = lines := by
  rw [linesOf, splitOn_textOfLines hlines, List.dropLast_concat, List.map_map]
  exact (List.map_congr_left fun _ _ => String.ofList_toList).trans (List.map_id lines)

/-- Lines without line breaks are known from their text. -/
theorem textOfLines_inj (hlines : ∀ line ∈ lines, IsOneLine line)
    (hlines' : ∀ line ∈ lines', IsOneLine line) (h : textOfLines lines = textOfLines lines') :
    lines = lines' := by
  rw [← linesOf_textOfLines hlines, h, linesOf_textOfLines hlines']

lemma mem_separated (hline : line ∈ separated blocks) :
    line = "" ∨ ∃ block ∈ blocks, line ∈ block := by
  induction blocks with
  | nil => simp at hline
  | cons block blocks ih =>
    by_cases hblocks : blocks = []
    · exact .inr ⟨block, List.mem_cons_self, by simpa [hblocks] using hline⟩
    · rw [separated_cons block hblocks, List.mem_append, List.mem_cons] at hline
      rcases hline with hline | rfl | hline
      · exact .inr ⟨block, List.mem_cons_self, hline⟩
      · exact .inl rfl
      · rcases ih hline with hblank | ⟨block', hblock', hline⟩
        · exact .inl hblank
        · exact .inr ⟨block', List.mem_cons_of_mem _ hblock', hline⟩

lemma isOneLine_of_mem_separated (hblocks : ∀ block ∈ blocks, ∀ line ∈ block, IsOneLine line) :
    ∀ line ∈ separated blocks, IsOneLine line := by
  intro line hline
  rcases mem_separated hline with rfl | ⟨block, hblock, hline⟩
  · decide
  · exact hblocks block hblock line hline

/-! ### The lines of resolvers -/

section Spelled

variable {a : Argument} {c : Call} {b : Body} {f : Routine} {r : Outline}

lemma Argument.isOneLine_text (ha : a.Spelled IsOneLine IsOneLine) : IsOneLine a.text := by
  rw [text]
  split <;> simp only [isOneLine_append]
  · exact ⟨⟨ha.label, by decide⟩, ha.typeName⟩
  · exact ⟨⟨⟨⟨ha.label, by decide⟩, ha.bindingName⟩, by decide⟩, ha.typeName⟩

lemma Argument.isOneLine_passed (ha : a.Spelled IsOneLine IsOneLine) : IsOneLine a.passed := by
  rw [passed]
  split
  · exact ha.bindingName
  · simp only [isOneLine_append]
    exact ⟨⟨ha.label, by decide⟩, ha.bindingName⟩

lemma Signature.isOneLine_text {s : Signature} (hs : s.Spelled IsOneLine IsOneLine) :
    IsOneLine s.text := by
  have harguments : IsOneLine (", ".intercalate (s.arguments.map Argument.text)) := by
    apply isOneLine_intercalate (by decide)
    intro part hpart
    obtain ⟨a, ha, rfl⟩ := List.mem_map.1 hpart
    exact Argument.isOneLine_text (hs.arguments a ha)
  have hreturn : IsOneLine s.returnText := by
    rw [returnText]
    split
    · next t ht => exact isOneLine_append.2 ⟨by decide, hs.returnTypeName t ht⟩
    · decide
  have hscope : IsOneLine s.scope.keyword := by
    cases s.scope <;> decide
  simp only [text, isOneLine_append]
  exact ⟨⟨⟨⟨⟨⟨hscope, by decide⟩, hs.name⟩, by decide⟩, harguments⟩, by decide⟩, hreturn⟩

lemma Call.isOneLine_text (hc : c.Spelled IsOneLine IsOneLine) : IsOneLine c.text := by
  have harguments : IsOneLine (", ".intercalate (c.arguments.map Argument.passed)) := by
    apply isOneLine_intercalate (by decide)
    intro part hpart
    obtain ⟨a, ha, rfl⟩ := List.mem_map.1 hpart
    exact Argument.isOneLine_passed (hc.arguments a ha)
  have hcallee : IsOneLine c.callee.text := by
    have hname := hc.callee
    cases hcallee : c.callee with
    | function name => exact (hcallee ▸ hname :)
    | member name => exact isOneLine_append.2 ⟨by decide, (hcallee ▸ hname :)⟩
  simp only [text, isOneLine_append]
  exact ⟨⟨⟨hcallee, by decide⟩, harguments⟩, by decide⟩

namespace LayoutOptions

variable (o : LayoutOptions) {level : Nat}

lemma isOneLine_indentation (level : Nat) : IsOneLine (o.indentation level) := by
  simp [IsOneLine, indentation]

lemma isOneLine_of_mem_bodyLines (hb : b.Spelled IsOneLine IsOneLine) :
    ∀ line ∈ o.bodyLines level b, IsOneLine line := by
  have hindent := o.isOneLine_indentation
  induction b generalizing level with
  | done => simp [bodyLines]
  | bind name call rest ih =>
    obtain ⟨hname, hcall, hrest⟩ := hb
    refine List.forall_mem_cons.2 ⟨?_, ih hrest⟩
    simp only [isOneLine_append]
    exact ⟨⟨⟨⟨hindent level, by decide⟩, hname⟩, by decide⟩, call.isOneLine_text hcall⟩
  | intercept interceptor builder rest ihbuilder ih =>
    obtain ⟨hname, hbuilder, hrest⟩ := hb
    refine List.forall_mem_cons.2 ⟨?_, List.forall_mem_append.2
      ⟨ihbuilder hbuilder, List.forall_mem_cons.2 ⟨?_, ih hrest⟩⟩⟩
    · simp only [isOneLine_append]
      exact ⟨⟨⟨hindent level, by decide⟩, hname⟩, by decide⟩
    · exact isOneLine_append.2 ⟨hindent level, by decide⟩
  | give call rest ih =>
    obtain ⟨hcall, hrest⟩ := hb
    refine List.forall_mem_cons.2 ⟨?_, ih hrest⟩
    simp only [isOneLine_append]
    exact ⟨⟨hindent level, by decide⟩, call.isOneLine_text hcall⟩

lemma isOneLine_of_mem_routineLines (hf : f.Spelled IsOneLine IsOneLine) :
    ∀ line ∈ o.routineLines f, IsOneLine line := by
  intro line hline
  have hindent := o.isOneLine_indentation 1
  simp only [routineLines, List.mem_filter, List.mem_append, List.mem_cons] at hline
  rcases hline.1 with (rfl | hbody) | rfl | hnone
  · simp only [isOneLine_append]
    exact ⟨⟨hindent, Signature.isOneLine_text hf.signature⟩, by decide⟩
  · exact o.isOneLine_of_mem_bodyLines hf.body line hbody
  · exact isOneLine_append.2 ⟨hindent, by decide⟩
  · cases hnone

lemma isOneLine_of_mem_extensionLines {name : String} {routines : List Routine}
    (hname : IsOneLine name) (hroutines : ∀ f ∈ routines, f.Spelled IsOneLine IsOneLine) :
    ∀ line ∈ o.extensionLines name routines, IsOneLine line := by
  have hlines : ∀ line ∈ separated (routines.map o.routineLines), IsOneLine line := by
    apply isOneLine_of_mem_separated
    intro block hblock
    obtain ⟨f, hf, rfl⟩ := List.mem_map.1 hblock
    exact o.isOneLine_of_mem_routineLines (hroutines f hf)
  intro line hline
  rw [extensionLines] at hline
  split at hline
  · cases hline
  · simp only [List.mem_append, List.mem_cons, List.not_mem_nil, or_false] at hline
    rcases hline with ((rfl | rfl | rfl) | hline) | rfl
    · decide
    · simp only [isOneLine_append]
      exact ⟨⟨by decide, hname⟩, by decide⟩
    · decide
    · exact hlines line hline
    · decide

lemma isOneLine_of_mem_interfaceLines (hr : r.Spelled IsOneLine IsOneLine) :
    ∀ line ∈ o.interfaceLines r, IsOneLine line := by
  have hconformances : IsOneLine (", ".intercalate (r.providerName :: r.inheritedResolverNames)) :=
    isOneLine_intercalate (by decide)
      (List.forall_mem_cons.2 ⟨hr.providerName, hr.inheritedResolverNames⟩)
  have hlines : ∀ line ∈ separated (([r.resolveSignatures, r.interceptSignatures].filter
      (!·.isEmpty)).map o.signatureLines), IsOneLine line := by
    apply isOneLine_of_mem_separated
    intro block hblock line hline
    obtain ⟨group, hgroup, rfl⟩ := List.mem_map.1 hblock
    obtain ⟨s, hs, rfl⟩ := List.mem_map.1 hline
    have hmem : s ∈ r.signatures := by
      have hgroup := (List.mem_filter.1 hgroup).1
      simp only [List.mem_cons, List.not_mem_nil, or_false] at hgroup
      rcases hgroup with rfl | rfl
      · exact List.mem_append_left _ hs
      · exact List.mem_append_right _ hs
    exact isOneLine_append.2
      ⟨o.isOneLine_indentation 1, Signature.isOneLine_text (hr.signatures s hmem)⟩
  intro line hline
  simp only [interfaceLines, List.mem_append, List.mem_cons, List.not_mem_nil, or_false] at hline
  rcases hline with (rfl | hline) | rfl
  · simp only [isOneLine_append]
    exact ⟨⟨⟨⟨by decide, hr.name⟩, by decide⟩, hconformances⟩, by decide⟩
  · exact hlines line hline
  · decide

/-- What is written of a resolver whose names and types hold no line break are lines. -/
theorem isOneLine_of_mem_resolverLines (hr : r.Spelled IsOneLine IsOneLine) :
    ∀ line ∈ o.resolverLines r, IsOneLine line := by
  have hresolve : ∀ f ∈ r.resolveRoutines, f.Spelled IsOneLine IsOneLine :=
    fun f hf => hr.routines f (List.mem_append_left _ hf)
  have hintercept : ∀ f ∈ r.interceptRoutines, f.Spelled IsOneLine IsOneLine :=
    fun f hf => hr.routines f (List.mem_append_right _ hf)
  rw [resolverLines, List.forall_mem_append, List.forall_mem_append]
  exact ⟨⟨o.isOneLine_of_mem_interfaceLines hr, o.isOneLine_of_mem_extensionLines hr.name hresolve⟩,
    o.isOneLine_of_mem_extensionLines hr.name hintercept⟩

end LayoutOptions

end Spelled

end Wiring
