import Wiring.Proofs.Layout.Form
import Wiring.Proofs.Layout.Statements

/-!
# Reading the text back

The text tells what it was made of, except for what it never shows: groups without members, the
types of the arguments of calls, and how a binding name was spelled (`layout_eq_iff`). It is read
from the front: imports, then resolvers, each with its groups of signatures and of routines.
-/

namespace Wiring

open Delimited

/-! ### Headers -/

namespace Outline

variable {r r' : Outline}

lemma toList_header (r : Outline) : r.header.toList = "protocol ".toList ++ (r.name.toList ++
    ':' :: ' ' :: ([',', ' '].intercalate
      ((r.providerName :: r.inheritedResolverNames).map String.toList) ++ [' ', '\x7b'])) := by
  simp [Outline.header]

/-- The first line of a resolver tells its name and those of what it extends. -/
lemma header_inj (hr : r.Spelled IsName IsOneLine) (hr' : r'.Spelled IsName IsOneLine)
    (h : r.header = r'.header) : r.name = r'.name ∧
      r.providerName :: r.inheritedResolverNames =
        r'.providerName :: r'.inheritedResolverNames := by
  have hchars := congrArg String.toList h
  rw [toList_header, toList_header] at hchars
  obtain ⟨hname, hchars⟩ := hr.name.1.append_inj hr'.name.1 (endsWord_cons (by decide))
    (endsWord_cons (by decide)) (List.append_cancel_left hchars)
  have hnames : ∀ r : Outline, r.Spelled IsName IsOneLine →
      ∀ n ∈ r.providerName :: r.inheritedResolverNames, IsWord n := fun r hr =>
    List.forall_mem_cons.2 ⟨hr.providerName.1, fun n hn => (hr.inheritedResolverNames n hn).1⟩
  have hparts : ∀ n, IsWord n → ∀ behind, EndsWord ([',', ' '] ++ (n.toList ++ behind)) ∧
      ¬ EndsWord (n.toList ++ behind) := fun n hn behind =>
    ⟨endsWord_cons (by decide), hn.not_endsWord⟩
  have hend : EndsWord [' ', '\x7b'] ∧ ∀ behind, [' ', '\x7b'] ≠ [',', ' '] ++ behind :=
    ⟨endsWord_cons (by decide), by simp⟩
  obtain ⟨hconformances, _⟩ := forall₂_of_intercalate
    (fun n hn n' hn' _ _ => (hnames r hr n hn).append_inj (hnames r' hr' n' hn'))
    (fun n hn => hparts n (hnames r hr n hn)) (fun n hn => hparts n (hnames r' hr' n hn))
    hend hend (List.cons.inj (List.cons.inj hchars).2).2
  exact ⟨hname, List.forall₂_eq_eq_eq ▸ hconformances⟩

lemma head?_header (r : Outline) : r.header.toList.head? = some 'p' := by
  rw [toList_header]
  rfl

end Outline

/-! ### Groups -/

/-- What may follow a group or a routine: an empty line, or the brace that closes its resolver or
extension. -/
def EndsPart (rest : List String) : Prop :=
  ∃ line ∈ rest.head?, line = "" ∨ line = "\x7d"

/-- A brace closes the last part, and no more of them follow. -/
lemma endsPart_closing (rest : List String) :
    EndsPart ("\x7d" :: rest) ∧ ∀ rest', "\x7d" :: rest ≠ [""] ++ rest' :=
  ⟨⟨_, rfl, .inr rfl⟩, by simp⟩

/-- What may follow a resolver: nothing, or an empty line and another resolver. -/
def EndsResolver (rest : List String) : Prop :=
  rest = [] ∨ ∃ line more, rest = "" :: line :: more ∧ line.toList.head? = some 'p'

lemma Outline.mem_signatureGroups {r : Outline} {group : List String}
    (hgroup : group ∈ r.signatureGroups) :
    group ≠ [] ∧ ∀ text ∈ group, ∃ s : Signature, s.text = text := by
  obtain ⟨signatures, hsignatures, rfl⟩ := List.mem_map.1 hgroup
  refine ⟨by simpa using (List.mem_filter.1 hsignatures).2, fun text htext => ?_⟩
  obtain ⟨s, _, rfl⟩ := List.mem_map.1 htext
  exact ⟨s, rfl⟩

lemma Outline.mem_routines_of_mem_routineGroups {r : Outline} {group : List Routine}
    (hgroup : group ∈ r.routineGroups) : ∀ f ∈ group, f ∈ r.routines := by
  intro f hf
  have hgroup := (List.mem_filter.1 hgroup).1
  simp only [List.mem_cons, List.not_mem_nil, or_false] at hgroup
  rcases hgroup with rfl | rfl
  · exact List.mem_append_left _ hf
  · exact List.mem_append_right _ hf

namespace LayoutOptions

variable {o : LayoutOptions} {name : String} {r r' : Outline} {rest rest' : List String}

lemma not_endsPart_signature (o : LayoutOptions) (s : Signature) (content : String) :
    ¬ EndsPart (o.indented 1 (s.text ++ content) :: rest) := by
  -- every signature holds the word that declares a function, whatever its scope is
  have hfunc : 'f' ∈ (o.indented 1 (s.text ++ content)).toList := by
    simp [toList_indented, Signature.text]
  rintro ⟨line, hline, hends⟩
  obtain rfl : o.indented 1 (s.text ++ content) = line := by simpa using hline
  rcases hends with hends | hends <;> simp [hends] at hfunc

lemma not_endsPart_of_mem {group : List String} {text : String} (hgroup : group ∈ r.signatureGroups)
    (htext : text ∈ group) : ¬ EndsPart (o.indented 1 text :: rest) := by
  obtain ⟨s, rfl⟩ := (Outline.mem_signatureGroups hgroup).2 text htext
  rw [← String.append_empty (s := s.text)]
  exact o.not_endsPart_signature s ""

/-- The signatures of a group are read off the front of some lines up to what ends it. -/
lemma signatureGroup_append_inj {group group' : List String} (hgroup : group ∈ r.signatureGroups)
    (hgroup' : group' ∈ r'.signatureGroups) (hrest : EndsPart rest) (hrest' : EndsPart rest')
    (h : group.map (o.indented 1) ++ rest = group'.map (o.indented 1) ++ rest') :
    group = group' ∧ rest = rest' := by
  have hlines : ∀ {r : Outline} {group : List String}, group ∈ r.signatureGroups →
      ∀ line ∈ group.map (o.indented 1), ¬ (line = "" ∨ line = "\x7d") := by
    intro r group hgroup line hline hends
    obtain ⟨text, htext, rfl⟩ := List.mem_map.1 hline
    exact not_endsPart_of_mem hgroup htext (⟨_, rfl, hends⟩ : EndsPart [_])
  have hends : ∀ {rest : List String}, EndsPart rest →
      ∀ line ∈ rest.head?, ¬ ¬ (line = "" ∨ line = "\x7d") := by
    rintro rest ⟨line, hline, hends⟩ line' hline'
    exact not_not.2 (Option.mem_unique hline hline' ▸ hends)
  obtain ⟨hmap, hrest⟩ :=
    append_inj_of_ends (hlines hgroup) (hlines hgroup') (hends hrest) (hends hrest') h
  exact ⟨List.map_injective_iff.2 (fun _ _ => indented_inj.1) hmap, hrest⟩

/-- The signatures of a resolver are read off the front of its lines, group by group. -/
lemma signatureGroups_append_inj
    (h : separated (r.signatureGroups.map (·.map (o.indented 1))) ++ "\x7d" :: rest =
      separated (r'.signatureGroups.map (·.map (o.indented 1))) ++ "\x7d" :: rest') :
    r.signatureGroups = r'.signatureGroups ∧ rest = rest' := by
  have hparts : ∀ r : Outline, ∀ group ∈ r.signatureGroups, ∀ behind,
      EndsPart ([""] ++ (group.map (o.indented 1) ++ behind)) ∧
        ¬ EndsPart (group.map (o.indented 1) ++ behind) := by
    intro r group hgroup behind
    obtain ⟨text, texts, rfl⟩ :=
      List.exists_cons_of_ne_nil (Outline.mem_signatureGroups hgroup).1
    exact ⟨⟨"", rfl, .inl rfl⟩, not_endsPart_of_mem hgroup List.mem_cons_self⟩
  obtain ⟨hgroups, hrest⟩ := forall₂_of_intercalate
    (fun group hgroup group' hgroup' _ _ => signatureGroup_append_inj hgroup hgroup')
    (hparts r) (hparts r') (endsPart_closing rest) (endsPart_closing rest') h
  exact ⟨List.forall₂_eq_eq_eq ▸ hgroups, (List.cons.inj hrest).2⟩

/-- Routines are read off the front of some lines up to the brace behind the last one. -/
lemma routines_append_inj {group group' : List Routine}
    (hgroup : ∀ f ∈ group, f.Spelled IsName IsOneLine)
    (hgroup' : ∀ f ∈ group', f.Spelled IsName IsOneLine)
    (h : separated (group.map o.routineLines) ++ "\x7d" :: rest =
      separated (group'.map o.routineLines) ++ "\x7d" :: rest') :
    List.Forall₂ Routine.Agrees group group' ∧ rest = rest' := by
  have hparts : ∀ f : Routine, ∀ behind, EndsPart ([""] ++ (o.routineLines f ++ behind)) ∧
      ¬ EndsPart (o.routineLines f ++ behind) := by
    intro f behind
    refine ⟨⟨"", rfl, .inl rfl⟩, ?_⟩
    rw [routineLines_eq]
    exact o.not_endsPart_signature f.signature _
  obtain ⟨hroutines, hrest⟩ := forall₂_of_intercalate
    (fun f hf f' hf' _ _ _ _ => routineLines_append_inj (hgroup f hf) (hgroup' f' hf'))
    (fun f _ => hparts f) (fun f _ => hparts f) (endsPart_closing rest) (endsPart_closing rest') h
  exact ⟨hroutines, (List.cons.inj hrest).2⟩

/-! ### Resolvers -/

lemma not_endsResolver_extensionGroup {routines : List Routine} :
    ¬ EndsResolver (o.extensionGroup name routines ++ rest) := by
  rintro (hnil | ⟨line, more, heq, hp⟩)
  · cases hnil
  · obtain rfl : "extension " ++ name ++ " \x7b" = line :=
      (List.cons.inj (List.cons.inj heq).2).1
    simp at hp

/-- The extensions of a resolver are read off the front of some lines up to what ends it. -/
lemma routineGroups_append_inj {groups groups' : List (List Routine)}
    (hgroups : ∀ group ∈ groups, ∀ f ∈ group, f.Spelled IsName IsOneLine)
    (hgroups' : ∀ group ∈ groups', ∀ f ∈ group, f.Spelled IsName IsOneLine)
    (hrest : EndsResolver rest) (hrest' : EndsResolver rest')
    (h : groups.flatMap (o.extensionGroup name) ++ rest =
      groups'.flatMap (o.extensionGroup name) ++ rest') :
    List.Forall₂ (List.Forall₂ Routine.Agrees) groups groups' ∧ rest = rest' := by
  induction groups generalizing groups' with
  | nil =>
    cases groups' with
    | nil => exact ⟨.nil, h⟩
    | cons group' groups' =>
      rw [List.flatMap_nil, List.nil_append, List.flatMap_cons, List.append_assoc] at h
      exact absurd (h ▸ hrest) not_endsResolver_extensionGroup
  | cons group groups ih =>
    cases groups' with
    | nil =>
      rw [List.flatMap_nil, List.nil_append, List.flatMap_cons, List.append_assoc] at h
      exact absurd (h ▸ hrest') not_endsResolver_extensionGroup
    | cons group' groups' =>
      obtain ⟨hgroup, hgroups⟩ := List.forall_mem_cons.1 hgroups
      obtain ⟨hgroup', hgroups'⟩ := List.forall_mem_cons.1 hgroups'
      simp only [List.flatMap_cons, extensionGroup, List.cons_append, List.append_assoc,
        List.nil_append, List.cons.injEq, true_and] at h
      obtain ⟨hroutines, h⟩ := routines_append_inj hgroup hgroup' h
      obtain ⟨hmore, hrest⟩ := ih hgroups hgroups' h
      exact ⟨.cons hroutines hmore, hrest⟩

/-- A resolver is read off the front of some lines up to what ends it. -/
theorem resolverLines_append_inj (hr : r.Spelled IsName IsOneLine)
    (hr' : r'.Spelled IsName IsOneLine) (hrest : EndsResolver rest) (hrest' : EndsResolver rest')
    (h : o.resolverLines r ++ rest = o.resolverLines r' ++ rest') : r.Agrees r' ∧ rest = rest' := by
  have hroutines : ∀ r : Outline, r.Spelled IsName IsOneLine → ∀ group ∈ r.routineGroups,
      ∀ f ∈ group, f.Spelled IsName IsOneLine := fun r hr group hgroup f hf =>
    hr.routines f (Outline.mem_routines_of_mem_routineGroups hgroup f hf)
  simp only [resolverLines_eq, List.cons_append, List.append_assoc] at h
  obtain ⟨hheader, h⟩ := List.cons.inj h
  obtain ⟨hname, hconformances⟩ := Outline.header_inj hr hr' hheader
  obtain ⟨hprovider, hinherited⟩ := List.cons.inj hconformances
  obtain ⟨hsignatures, h⟩ := signatureGroups_append_inj h
  rw [← hname] at h
  obtain ⟨hgroups, hrest⟩ :=
    routineGroups_append_inj (hroutines r hr) (hroutines r' hr') hrest hrest' h
  exact ⟨⟨hname, hprovider, hinherited, hsignatures, hgroups⟩, hrest⟩

/-- Resolvers are read back one by one. -/
theorem agrees_of_separated_eq (o : LayoutOptions) {outlines outlines' : List Outline}
    (houtlines : ∀ r ∈ outlines, r.Spelled IsName IsOneLine)
    (houtlines' : ∀ r ∈ outlines', r.Spelled IsName IsOneLine)
    (h : separated (outlines.map o.resolverLines) = separated (outlines'.map o.resolverLines)) :
    List.Forall₂ Outline.Agrees outlines outlines' := by
  have hparts : ∀ r : Outline, ∀ behind, EndsResolver ([""] ++ (o.resolverLines r ++ behind)) ∧
      ¬ EndsResolver (o.resolverLines r ++ behind) := by
    intro r behind
    rw [resolverLines_eq]
    refine ⟨.inr ⟨_, _, rfl, r.head?_header⟩, ?_⟩
    rintro (hnil | ⟨line, more, heq, _⟩)
    · cases hnil
    · have hheader := r.head?_header
      simp [(List.cons.inj heq).1] at hheader
  have hend : EndsResolver [] ∧ ∀ behind, [] ≠ [""] ++ behind := ⟨.inl rfl, nofun⟩
  refine (forall₂_of_intercalate (fun r hr r' hr' _ _ =>
    resolverLines_append_inj (houtlines r hr) (houtlines' r' hr')) (fun r _ => hparts r)
    (fun r _ => hparts r) hend hend ?_).1
  rw [List.append_nil, List.append_nil]
  exact h

end LayoutOptions

/-! ### Imports -/

/-- Imports are read off the front of a text up to the first line that is none. -/
lemma imports_append_inj {imports imports' : List String} {rest rest' : List Char}
    (himports : ∀ name ∈ imports, IsOneLine name) (himports' : ∀ name ∈ imports', IsOneLine name)
    (hrest : rest.head? ≠ some 'i') (hrest' : rest'.head? ≠ some 'i')
    (h : (textOfLines (imports.map ("import " ++ ·))).toList ++ rest =
      (textOfLines (imports'.map ("import " ++ ·))).toList ++ rest') :
    imports = imports' ∧ rest = rest' := by
  have hcons : ∀ (name : String) (names : List String) (behind : List Char),
      (textOfLines ((name :: names).map ("import " ++ ·))).toList ++ behind =
        "import ".toList ++ (name.toList ++
          '\n' :: ((textOfLines (names.map ("import " ++ ·))).toList ++ behind)) := by
    simp [textOfLines_cons]
  have hline : ∀ {name : String}, IsOneLine name → ∀ c ∈ name.toList, c ≠ '\n' :=
    fun hname c hc heq => hname (heq ▸ hc)
  induction imports generalizing imports' with
  | nil =>
    cases imports' with
    | nil => exact ⟨rfl, by simpa [textOfLines] using h⟩
    | cons name' imports' =>
      rw [hcons] at h
      exact absurd (by simpa [textOfLines] using congrArg List.head? h) hrest
  | cons name imports ih =>
    cases imports' with
    | nil =>
      rw [hcons] at h
      exact absurd (by simpa [textOfLines] using (congrArg List.head? h).symm) hrest'
    | cons name' imports' =>
      obtain ⟨hname, himports⟩ := List.forall_mem_cons.1 himports
      obtain ⟨hname', himports'⟩ := List.forall_mem_cons.1 himports'
      rw [hcons, hcons] at h
      obtain ⟨hname, h⟩ := append_inj_of_ends (hline hname) (hline hname') (by simp) (by simp)
        (List.append_cancel_left h)
      obtain ⟨rfl, hrest⟩ := ih himports himports' (List.cons.inj h).2
      exact ⟨by rw [String.toList_inj.1 hname], hrest⟩

lemma head?_textOfLines_separated {blocks : List (List String)}
    (hblocks : ∀ block ∈ blocks, ∃ line lines, block = line :: lines ∧
      line.toList.head? = some 'p') :
    (textOfLines (separated blocks)).toList.head? ≠ some 'i' := by
  cases blocks with
  | nil => simp [textOfLines]
  | cons block blocks =>
    obtain ⟨line, lines, rfl, hp⟩ := hblocks block List.mem_cons_self
    obtain ⟨behind, hlines⟩ : ∃ behind, separated ((line :: lines) :: blocks) = line :: behind := by
      by_cases hrest : blocks = []
      · exact ⟨lines, by simp [hrest]⟩
      · exact ⟨_, by rw [separated_cons _ hrest, List.cons_append]⟩
    simp [hlines, textOfLines_cons, List.head?_append, hp]

namespace LayoutOptions

variable {o : LayoutOptions} {markers : Markers} {imports imports' : List String}
  {outlines outlines' : List Outline}

lemma exists_cons_of_mem_declarations (o : LayoutOptions) (markers : Markers)
    (outlines : List Outline) :
    ∀ block ∈ o.preambleBlocks markers ++ outlines.map o.resolverLines,
      ∃ line lines, block = line :: lines ∧ line.toList.head? = some 'p' := by
  intro block hblock
  rcases List.mem_append.1 hblock with hpreamble | hresolver
  · rw [preambleBlocks] at hpreamble
    split at hpreamble
    · obtain ⟨marker, _, rfl⟩ := List.mem_map.1 hpreamble
      exact ⟨_, [], rfl, by simp⟩
    · cases hpreamble
  · obtain ⟨r, _, rfl⟩ := List.mem_map.1 hresolver
    exact ⟨_, _, o.resolverLines_eq r, r.head?_header⟩

lemma documentLines_eq_append (o : LayoutOptions) (markers : Markers) (imports : List String)
    (outlines : List Outline) : o.documentLines markers imports outlines =
      separated (o.importBlocks imports ++ (o.preambleBlocks markers ++
        outlines.map o.resolverLines)) := by
  rw [documentLines, List.append_assoc]

/-- A text starts with the imports that are wanted, and no line behind them looks like an import. -/
lemma exists_layout_eq_append (markers : Markers) (imports : List String) (outlines : List Outline)
    (hwanted : o.imports = true) :
    ∃ rest : List Char, (layout o markers imports outlines).toList =
      (textOfLines (imports.map ("import " ++ ·))).toList ++ rest ∧ rest.head? ≠ some 'i' := by
  have hdeclarations :=
    head?_textOfLines_separated (o.exists_cons_of_mem_declarations markers outlines)
  rw [layout, documentLines_eq_append]
  by_cases himports : imports = []
  · exact ⟨_, by simp [importBlocks, himports, textOfLines], hdeclarations⟩
  · have hblocks : o.importBlocks imports = [imports.map ("import " ++ ·)] := by
      simp [importBlocks, hwanted, himports]
    rw [hblocks, List.singleton_append]
    by_cases hnone : o.preambleBlocks markers ++ outlines.map o.resolverLines = []
    · exact ⟨[], by simp [hnone], by simp⟩
    · rw [separated_cons _ hnone, textOfLines_append, textOfLines_cons, String.toList_append]
      exact ⟨_, rfl, by simp⟩

lemma imports_eq_of_layout_eq (himports : ∀ name ∈ imports, IsOneLine name)
    (himports' : ∀ name ∈ imports', IsOneLine name) (hwanted : o.imports = true)
    (h : layout o markers imports outlines = layout o markers imports' outlines') :
    imports = imports' := by
  obtain ⟨rest, htext, hrest⟩ := exists_layout_eq_append markers imports outlines hwanted
  obtain ⟨rest', htext', hrest'⟩ := exists_layout_eq_append markers imports' outlines' hwanted
  rw [h, htext'] at htext
  exact (imports_append_inj himports himports' hrest hrest' htext.symm).1

end LayoutOptions

/-! ### The whole text -/

/-- Behind the blocks that two texts have in common, what is in the one is in the other. -/
lemma textOfLines_separated_append_inj {common blocks blocks' : List (List String)}
    (h : textOfLines (separated (common ++ blocks)) =
      textOfLines (separated (common ++ blocks'))) :
    textOfLines (separated blocks) = textOfLines (separated blocks') := by
  by_cases hcommon : common = []
  · simpa [hcommon] using h
  · have hbehind : ∀ blocks : List (List String), textOfLines (separated (common ++ blocks)) =
        textOfLines (separated common) ++
          if blocks = [] then "" else "\n" ++ textOfLines (separated blocks) := by
      intro blocks
      split
      · next hnone => simp [hnone]
      · next hsome =>
        rw [separated_append hcommon hsome, textOfLines_append, textOfLines_cons,
          String.empty_append]
    rw [hbehind, hbehind, String.append_right_inj] at h
    split_ifs at h with hnone hnone' hnone'
    · rw [hnone, hnone']
    · simp [String.ext_iff] at h
    · simp [String.ext_iff] at h
    · exact (String.append_right_inj "\n").1 h

/-- The text is the same just if everything that it shows is the same. The markers may be any, as
they are the same for both. -/
theorem layout_eq_iff {o : LayoutOptions} {markers : Markers} {imports imports' : List String}
    {outlines outlines' : List Outline} (himports : ∀ name ∈ imports, IsOneLine name)
    (himports' : ∀ name ∈ imports', IsOneLine name)
    (houtlines : ∀ r ∈ outlines, r.Spelled IsName IsOneLine)
    (houtlines' : ∀ r ∈ outlines', r.Spelled IsName IsOneLine) :
    layout o markers imports outlines = layout o markers imports' outlines' ↔
      (o.imports = true → imports = imports') ∧ List.Forall₂ Outline.Agrees outlines outlines' := by
  refine ⟨fun h => ?_, fun ⟨himports, houtlines⟩ => layout_congr himports houtlines⟩
  have hwanted : o.imports = true → imports = imports' := fun hwanted =>
    LayoutOptions.imports_eq_of_layout_eq himports himports' hwanted h
  refine ⟨hwanted, o.agrees_of_separated_eq houtlines houtlines' ?_⟩
  have hblocks : o.importBlocks imports = o.importBlocks imports' :=
    LayoutOptions.importBlocks_congr hwanted
  -- a marker may hold line breaks, so its block is cut off before the text is taken for lines
  have hresolvers : textOfLines (separated (outlines.map o.resolverLines)) =
      textOfLines (separated (outlines'.map o.resolverLines)) := by
    simp only [layout, LayoutOptions.documentLines, hblocks] at h
    exact textOfLines_separated_append_inj h
  have honeLine : ∀ outlines : List Outline, (∀ r ∈ outlines, r.Spelled IsName IsOneLine) →
      ∀ line ∈ separated (outlines.map o.resolverLines), IsOneLine line := by
    intro outlines houtlines
    apply isOneLine_of_mem_separated
    intro block hblock
    obtain ⟨r, hr, rfl⟩ := List.mem_map.1 hblock
    exact o.isOneLine_of_mem_resolverLines
      ((houtlines r hr).imp (fun _ => IsName.isOneLine) fun _ => id)
  exact textOfLines_inj (honeLine outlines houtlines) (honeLine outlines' houtlines') hresolvers

/-- The nested outline, but for the type of what a call passes on and the spelling of its name. -/
def Outline.respelled : Outline :=
  { Outline.nested with
    resolveRoutines :=
      [⟨{ name := "resolveA", returnTypeName := some "A" },
        .intercept "interceptA"
          (.bind "b" ⟨.function "resolveB", []⟩
            (.intercept "traced" (.give ⟨.member "init", [⟨"b", some "b", "any B"⟩]⟩ .done) .done))
          .done⟩] }

/-- Nothing tells the respelled outline from the nested one, even if levels are indented. -/
theorem layout_eq_iff_respelled :
    (∀ name ∈ ["Foundation"], IsOneLine name) ∧
      (∀ r ∈ [Outline.nested], r.Spelled IsName IsOneLine) ∧
      (∀ r ∈ [Outline.respelled], r.Spelled IsName IsOneLine) ∧
      (layout ⟨4, true, true⟩ {} ["Foundation"] [Outline.nested] =
          layout ⟨4, true, true⟩ {} ["Foundation"] [Outline.respelled] ↔
        (true = true → ["Foundation"] = ["Foundation"]) ∧
          List.Forall₂ Outline.Agrees [Outline.nested] [Outline.respelled]) := by
  have himports : ∀ name ∈ ["Foundation"], IsOneLine name := by decide
  have hnested : ∀ r ∈ [Outline.nested], r.Spelled IsName IsOneLine := by decide
  have hrespelled : ∀ r ∈ [Outline.respelled], r.Spelled IsName IsOneLine := by decide
  exact ⟨himports, hnested, hrespelled, layout_eq_iff himports himports hnested hrespelled⟩

end Wiring
