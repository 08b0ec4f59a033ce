import Mathlib.Data.List.Chain
import Wiring.Proofs.Layout.Bodies

/-!
# The form of the text

Groups, routines and sections are set apart by one empty line each, which no part of the text starts
or ends with. So the text has no two blank lines in a row, and the last line is not blank
(`wellFormed_of_oneLine`).
-/

namespace Wiring

open Blank

variable {line : String} {lines lines' block : List String} {blocks : List (List String)}

/-! ### Lines without a gap of two -/

/-- Lines of which the first and the last one are not blank, and no two in a row are. -/
structure IsSolid (lines : List String) : Prop where
  first : ∃ line ∈ lines.head?, isBlankText line = false
  last : ∃ line ∈ lines.getLast?, isBlankText line = false
  chain : lines.IsChain fun line next => isBlankText line = false ∨ isBlankText next = false

lemma isSolid_of_not_blank (hlines : lines ≠ [])
    (hblank : ∀ line ∈ lines, isBlankText line = false) : IsSolid lines where
  first := ⟨lines.head hlines, List.head_mem_head? hlines, hblank _ (List.head_mem hlines)⟩
  last := ⟨lines.getLast hlines, List.getLast?_eq_some_getLast hlines,
    hblank _ (List.getLast_mem hlines)⟩
  chain := (List.pairwise_of_forall_mem_list fun line hline _ _ => .inl (hblank line hline)).isChain

lemma isSolid_singleton (hline : isBlankText line = false) : IsSolid [line] :=
  isSolid_of_not_blank (List.cons_ne_nil _ _) (by simpa using hline)

namespace IsSolid

lemma append (h : IsSolid lines) (h' : IsSolid lines') : IsSolid (lines ++ lines') := by
  obtain ⟨first, hfirst, hblank⟩ := h.first
  obtain ⟨last, hlast, hblank'⟩ := h'.last
  refine ⟨⟨first, by simp [List.head?_append, Option.mem_def.1 hfirst], hblank⟩,
    ⟨last, by simp [List.getLast?_append, Option.mem_def.1 hlast], hblank'⟩,
    h.chain.append h'.chain ?_⟩
  intro line hline _ _
  obtain ⟨line', hline', hblank⟩ := h.last
  exact .inl (Option.mem_unique hline hline' ▸ hblank)

/-- An empty line may stand between lines without a gap. -/
lemma append_empty (h : IsSolid lines) (h' : IsSolid lines') : IsSolid (lines ++ "" :: lines') := by
  obtain ⟨first, hfirst, hblank⟩ := h.first
  obtain ⟨last, hlast, hblank'⟩ := h'.last
  refine ⟨⟨first, by simp [List.head?_append, Option.mem_def.1 hfirst], hblank⟩,
    ⟨last, by simp [List.getLast?_append, List.getLast?_cons, Option.mem_def.1 hlast], hblank'⟩,
    h.chain.append (List.isChain_cons.2 ⟨?_, h'.chain⟩) ?_⟩
  · intro next hnext
    obtain ⟨next', hnext', hblank⟩ := h'.first
    exact .inr (Option.mem_unique hnext hnext' ▸ hblank)
  · intro line hline _ _
    obtain ⟨line', hline', hblank⟩ := h.last
    exact .inl (Option.mem_unique hline hline' ▸ hblank)

end IsSolid

lemma isSolid_separated (hblocks : blocks ≠ []) (hsolid : ∀ block ∈ blocks, IsSolid block) :
    IsSolid (separated blocks) := by
  induction blocks with
  | nil => exact absurd rfl hblocks
  | cons block blocks ih =>
    obtain ⟨hblock, hsolid⟩ := List.forall_mem_cons.1 hsolid
    by_cases hrest : blocks = []
    · simpa [hrest] using hblock
    · rw [separated_cons block hrest]
      exact hblock.append_empty (ih hrest hsolid)

lemma isInfix_separated (hblock : block ∈ blocks) : block <:+: separated blocks := by
  induction blocks with
  | nil => cases hblock
  | cons first blocks ih =>
    by_cases hrest : blocks = []
    · obtain rfl : block = first := by simpa [hrest] using hblock
      simp [hrest]
    · rw [separated_cons first hrest]
      rcases List.mem_cons.1 hblock with rfl | hblock
      · exact (List.prefix_append _ _).isInfix
      · exact (ih hblock).trans ((List.suffix_cons _ _).trans (List.suffix_append _ _)).isInfix

/-! ### Resolvers -/

namespace LayoutOptions

variable {o : LayoutOptions} {f : Routine} {r : Outline} {markers : Markers}
  {imports : List String} {outlines : List Outline}

lemma isSolid_routineLines (o : LayoutOptions) (f : Routine) : IsSolid (o.routineLines f) :=
  isSolid_of_not_blank (by rw [routineLines_eq]; exact List.cons_ne_nil _ _)
    fun _ => not_blank_of_mem_routineLines

lemma isSolid_closing : IsSolid ["\x7d"] :=
  isSolid_singleton (by decide)

lemma isSolid_interfaceLines (o : LayoutOptions) (r : Outline) : IsSolid (o.interfaceLines r) := by
  have hprotocol : isBlankText "protocol " = false := by decide
  have hheader : IsSolid ["protocol " ++ r.name ++ ": " ++
      ", ".intercalate (r.providerName :: r.inheritedResolverNames) ++ " \x7b"] :=
    isSolid_singleton (by simp [hprotocol])
  rw [interfaceLines]
  by_cases hgroups : [r.resolveSignatures, r.interceptSignatures].filter (!·.isEmpty) = []
  · rw [hgroups]
    exact hheader.append isSolid_closing
  · have hlines : IsSolid (separated (([r.resolveSignatures, r.interceptSignatures].filter
        (!·.isEmpty)).map o.signatureLines)) := by
      apply isSolid_separated (mt List.map_eq_nil_iff.1 hgroups)
      intro block hblock
      obtain ⟨group, hgroup, rfl⟩ := List.mem_map.1 hblock
      apply isSolid_of_not_blank
      · simpa [signatureLines] using (List.mem_filter.1 hgroup).2
      · intro line hline
        obtain ⟨s, _, rfl⟩ := List.mem_map.1 hline
        simp [isBlankText_signature]
    exact (hheader.append hlines).append isSolid_closing

lemma extensionLines_eq (name : String) (routines : List Routine) :
    o.extensionLines name routines = [] ∨
      ∃ lines, IsSolid lines ∧ o.extensionLines name routines = "" :: lines := by
  rw [extensionLines]
  split
  · exact .inl rfl
  · next hroutines =>
    have hextension : isBlankText "extension " = false := by decide
    have hheader : IsSolid ["extension " ++ name ++ " \x7b"] :=
      isSolid_singleton (by simp [hextension])
    have hlines : IsSolid (separated (routines.map o.routineLines)) := by
      apply isSolid_separated (by simpa using hroutines)
      intro block hblock
      obtain ⟨f, _, rfl⟩ := List.mem_map.1 hblock
      exact o.isSolid_routineLines f
    exact .inr ⟨_, (hheader.append_empty hlines).append isSolid_closing, rfl⟩

lemma isSolid_append_extensionLines (o : LayoutOptions) (h : IsSolid lines) (name : String)
    (routines : List Routine) : IsSolid (lines ++ o.extensionLines name routines) := by
  rcases o.extensionLines_eq name routines with hnil | ⟨extension, hextension, heq⟩
  · rwa [hnil, List.append_nil]
  · rw [heq]
    exact h.append_empty hextension

lemma isSolid_resolverLines (o : LayoutOptions) (r : Outline) : IsSolid (o.resolverLines r) := by
  have hresolve := o.isSolid_append_extensionLines (o.isSolid_interfaceLines r) r.name
    r.resolveRoutines
  exact o.isSolid_append_extensionLines hresolve r.name r.interceptRoutines

lemma isInfix_extensionLines {name : String} {routines : List Routine} (hf : f ∈ routines) :
    o.routineLines f <:+: o.extensionLines name routines := by
  rw [extensionLines, if_neg (by simpa using List.ne_nil_of_mem hf)]
  have hlines := isInfix_separated (List.mem_map_of_mem (f := o.routineLines) hf)
  exact hlines.trans (List.infix_append _ _ _)

lemma isInfix_resolverLines (hf : f ∈ r.routines) :
    o.routineLines f <:+: o.resolverLines r := by
  rw [resolverLines]
  rcases List.mem_append.1 hf with hf | hf
  · exact (isInfix_extensionLines hf).trans (List.infix_append _ _ _)
  · exact (isInfix_extensionLines hf).trans (List.suffix_append _ _).isInfix

/-! ### The whole text -/

lemma documentLines_eq (o : LayoutOptions) (markers : Markers) (imports : List String)
    (outlines : List Outline) :
    o.documentLines markers imports outlines = separated (o.sections markers imports outlines) :=
  rfl

lemma isSolid_of_mem_sections (hblock : block ∈ o.sections markers imports outlines) :
    IsSolid block := by
  have himport : isBlankText "import " = false := by decide
  have hprotocol : isBlankText "public protocol " = false := by decide
  have hne := o.ne_nil_of_mem_sections markers imports outlines hblock
  simp only [sections, List.mem_append, importBlocks, preambleBlocks] at hblock
  rcases hblock with (himports | hpreamble) | hresolver
  · split at himports
    · rw [List.mem_singleton.1 himports] at hne ⊢
      apply isSolid_of_not_blank hne
      intro line hline
      obtain ⟨name, _, rfl⟩ := List.mem_map.1 hline
      simp [himport]
    · cases himports
  · split at hpreamble
    · obtain ⟨marker, _, rfl⟩ := List.mem_map.1 hpreamble
      exact isSolid_singleton (by simp [hprotocol])
    · cases hpreamble
  · obtain ⟨r, _, rfl⟩ := List.mem_map.1 hresolver
    exact o.isSolid_resolverLines r

lemma isOneLine_of_mem_documentLines (hprovider : IsOneLine markers.provider)
    (hinjectable : IsOneLine markers.injectable) (himports : ∀ name ∈ imports, IsOneLine name)
    (houtlines : ∀ r ∈ outlines, r.Spelled IsOneLine IsOneLine) :
    ∀ line ∈ o.documentLines markers imports outlines, IsOneLine line := by
  apply isOneLine_of_mem_separated
  intro block hblock line hline
  simp only [List.mem_append, importBlocks, preambleBlocks] at hblock
  rcases hblock with (hblock | hblock) | hblock
  · split at hblock
    · rw [List.mem_singleton.1 hblock] at hline
      obtain ⟨name, hname, rfl⟩ := List.mem_map.1 hline
      exact isOneLine_append.2 ⟨by decide, himports name hname⟩
    · cases hblock
  · split at hblock
    · obtain ⟨marker, hmarker, rfl⟩ := List.mem_map.1 hblock
      have hmarker : IsOneLine marker := by
        simp only [List.mem_cons, List.not_mem_nil, or_false] at hmarker
        rcases hmarker with rfl | rfl
        · exact hinjectable
        · exact hprovider
      obtain rfl := List.mem_singleton.1 hline
      simp only [isOneLine_append]
      exact ⟨⟨by decide, hmarker⟩, by decide⟩
    · cases hblock
  · obtain ⟨r, hr, rfl⟩ := List.mem_map.1 hblock
    exact o.isOneLine_of_mem_resolverLines (houtlines r hr) line hline

end LayoutOptions

/-- A text that starts with a line that is not blank, ends with a single line break, and has no two
blank lines in a row. -/
structure IsWellSpaced (text : String) : Prop where
  first : ∃ line ∈ (linesOf text).head?, isBlankText line = false
  ending : ∃ front c, text.toList = front ++ [c, '\n'] ∧ c ≠ '\n'
  chain : (linesOf text).IsChain fun line next =>
    isBlankText line = false ∨ isBlankText next = false

lemma IsSolid.isWellSpaced (h : IsSolid lines) (hlines : ∀ line ∈ lines, IsOneLine line) :
    IsWellSpaced (textOfLines lines) := by
  have hlinesOf := linesOf_textOfLines hlines
  refine ⟨hlinesOf.symm ▸ h.first, ?_, hlinesOf.symm ▸ h.chain⟩
  obtain ⟨last, hlast, hblank⟩ := h.last
  obtain ⟨front, rfl⟩ := List.getLast?_eq_some_iff.1 hlast
  have hnonempty : last.toList ≠ [] := fun hnil => by simp [isBlankText, hnil] at hblank
  obtain ⟨chars, c, hchars⟩ := (List.eq_nil_or_concat last.toList).resolve_left hnonempty
  have hc : c ≠ '\n' := fun heq => hlines last (by simp) (by simp [hchars, heq])
  refine ⟨(textOfLines front).toList ++ chars, c, ?_, hc⟩
  simp [textOfLines, hchars]

/-- How the text of a layout is formed. -/
structure LayoutOptions.WellFormed (o : LayoutOptions) (markers : Markers) (imports : List String)
    (outlines : List Outline) : Prop where
  lines_eq : linesOf (layout o markers imports outlines) = o.documentLines markers imports outlines
  /-- The lines of every routine stand in the text in a row. -/
  routines : ∀ r ∈ outlines, ∀ f ∈ r.routines,
    o.routineLines f <:+: linesOf (layout o markers imports outlines) ∧ o.FollowsStatements f
  wellSpaced : layout o markers imports outlines = "" ∨
    IsWellSpaced (layout o markers imports outlines)

/-- Whatever the options are, the text of strings without line breaks is well formed. -/
theorem wellFormed_of_oneLine {o : LayoutOptions} {markers : Markers} {imports : List String}
    {outlines : List Outline} (hprovider : IsOneLine markers.provider)
    (hinjectable : IsOneLine markers.injectable) (himports : ∀ name ∈ imports, IsOneLine name)
    (houtlines : ∀ r ∈ outlines, r.Spelled IsOneLine IsOneLine) :
    o.WellFormed markers imports outlines := by
  have honeLine := o.isOneLine_of_mem_documentLines hprovider hinjectable himports houtlines
  have hlines := linesOf_textOfLines honeLine
  constructor
  case lines_eq => exact hlines
  case routines =>
    intro r hr f hf
    refine ⟨?_, o.followsStatements f⟩
    rw [layout, hlines, LayoutOptions.documentLines_eq]
    have hsection : o.resolverLines r ∈ o.sections markers imports outlines :=
      List.mem_append_right _ (List.mem_map_of_mem hr)
    exact (LayoutOptions.isInfix_resolverLines hf).trans (isInfix_separated hsection)
  case wellSpaced =>
    by_cases hsections : o.sections markers imports outlines = []
    · refine .inl (textOfLines_eq_empty_iff.2 ?_)
      rw [LayoutOptions.documentLines_eq, hsections]
      rfl
    · have hsolid : IsSolid (o.documentLines markers imports outlines) :=
        isSolid_separated hsections fun _ => LayoutOptions.isSolid_of_mem_sections
      exact .inr (hsolid.isWellSpaced honeLine)

/-- A resolver with a routine that hands a builder to an interceptor within another builder. -/
def Outline.nested : Outline where
  name := "AppResolver"
  providerName := "AppProvider"
  inheritedResolverNames := ["BaseResolver"]
  resolveSignatures := [{ name := "resolveA", returnTypeName := some "A" }]
  interceptSignatures :=
    [{ name := "interceptA", arguments := [⟨"_", some "build", "() -> A"⟩],
       returnTypeName := some "A" }]
  resolveRoutines :=
    [⟨{ name := "resolveA", returnTypeName := some "A" },
      .intercept "interceptA"
        (.bind "b" ⟨.function "resolveB", []⟩
          (.intercept "traced" (.give ⟨.member "init", [⟨"b", none, "B"⟩]⟩ .done) .done))
        .done⟩]

/-- The text of the nested routine is well formed even if levels are not indented. -/
theorem wellFormed_nested :
    (∀ r ∈ [Outline.nested], r.Spelled IsOneLine IsOneLine) ∧
      LayoutOptions.WellFormed ⟨0, true, true⟩ {} ["Foundation"] [Outline.nested] := by
  have houtlines : ∀ r ∈ [Outline.nested], r.Spelled IsOneLine IsOneLine := by decide
  exact ⟨houtlines, wellFormed_of_oneLine (by decide) (by decide) (by decide) houtlines⟩

end Wiring
