import Mathlib.Data.List.Basic
import Mathlib.Data.List.Pairwise
import Wiring.Proofs.Trimming
import Wiring.Settings

/-!
# The types that type names speak of

Qualifiers are tried one after the other as beginnings of a type name, and one of them can begin
another. As long as no qualifier holds a blank character, there is only one that can come off all
the same: the first word of the name. So neither their order nor their repetition matters
(`Settings.stripsFirstWord`).
-/

namespace Wiring

open Blank

variable {qualifiers : List (List Char)} {text word q rest : List Char} {c : Char}

/-! ### The first word -/

/-- A text without blank characters. -/
def IsUnbroken (text : List Char) : Prop :=
  ∀ c ∈ text, isBlank c = false

-- by the characters of the text, and not by all the characters that there are
instance : DecidablePred IsUnbroken := fun text =>
  List.decidableBAll (isBlank · = false) text

/-- A text up to its first blank character. -/
def firstWord (text : List Char) : List Char :=
  text.takeWhile fun c => !isBlank c

/-- A text from its first blank character on. -/
def behindFirstWord (text : List Char) : List Char :=
  text.dropWhile fun c => !isBlank c

lemma firstWord_append_behindFirstWord (text : List Char) :
    firstWord text ++ behindFirstWord text = text :=
  List.takeWhile_append_dropWhile

/-- A word ends where a blank character follows. -/
lemma firstWord_and_behindFirstWord_of_append (hword : IsUnbroken word)
    (hc : isBlank c = true) (rest : List Char) : firstWord (word ++ c :: rest) = word ∧
      behindFirstWord (word ++ c :: rest) = c :: rest := by
  have hinside : ∀ c ∈ word, (!isBlank c) = true := fun c hc => by rw [hword c hc]; rfl
  rw [firstWord, behindFirstWord, List.takeWhile_append_of_pos hinside,
    List.dropWhile_append_of_pos hinside]
  simp [hc]

/-- A blank character starts what follows the first word. -/
lemma exists_eq_cons_behindFirstWord (h : behindFirstWord text ≠ []) :
    ∃ c rest, isBlank c = true ∧ behindFirstWord text = c :: rest := by
  obtain ⟨c, rest, hcons⟩ := List.exists_cons_of_ne_nil h
  have hhead := List.head?_dropWhile_not (fun c => !isBlank c) text
  rw [← behindFirstWord, hcons] at hhead
  exact ⟨c, rest, by simpa using hhead, hcons⟩

/-! ### Qualifiers -/

/-- A text without its first word, if that is a qualifier and something follows it. -/
def withoutQualifier (qualifiers : List (List Char)) (text : List Char) : List Char :=
  if firstWord text ∈ qualifiers ∧ behindFirstWord text ≠ [] then trim (behindFirstWord text)
  else text

/-- A qualifier without blank characters comes off just if it is the first word. -/
lemma afterQualifier?_eq_some_iff (hq : IsUnbroken q) :
    afterQualifier? text q = some rest ↔ firstWord text = q ∧ behindFirstWord text ≠ [] ∧
      trimLeft (behindFirstWord text) = rest := by
  constructor
  · intro h
    rw [afterQualifier?] at h
    split at h
    · next c behind hprefix =>
      obtain rfl := List.isPrefixOf?_eq_some_iff_append_eq.1 hprefix
      split at h
      · next hc =>
        obtain ⟨hfirst, hbehind⟩ := firstWord_and_behindFirstWord_of_append hq hc behind
        refine ⟨hfirst, by simp [hbehind], ?_⟩
        rw [hbehind, trimLeft_cons hc]
        exact Option.some.inj h
      · cases h
    · cases h
  · rintro ⟨rfl, hbehind, rfl⟩
    obtain ⟨c, behind, hc, hcons⟩ := exists_eq_cons_behindFirstWord hbehind
    have hprefix : (firstWord text).isPrefixOf? text = some (c :: behind) := by
      rw [List.isPrefixOf?_eq_some_iff_append_eq, ← hcons, firstWord_append_behindFirstWord]
    rw [afterQualifier?, hprefix, hcons, trimLeft_cons hc]
    exact if_pos hc

lemma last_behindFirstWord (h : IsTrimmed text) :
    ∀ c ∈ (behindFirstWord text).getLast?, isBlank c = false := by
  have hlast := h.last
  rw [← firstWord_append_behindFirstWord text] at hlast
  exact isBlank_of_mem_getLast?_append hlast

/-- Whichever qualifier is tried first, the one that comes off is the first word. -/
theorem unqualified_eq (hqualifiers : ∀ q ∈ qualifiers, IsUnbroken q)
    (name : List Char) : unqualified qualifiers name = withoutQualifier qualifiers (trim name) := by
  rw [unqualified, withoutQualifier]
  cases hfound : qualifiers.findSome? (afterQualifier? (trim name)) with
  | none =>
    rw [if_neg]
    · rfl
    rintro ⟨hmem, hbehind⟩
    have hnone := List.findSome?_eq_none_iff.1 hfound _ hmem
    rw [(afterQualifier?_eq_some_iff (hqualifiers _ hmem)).2 ⟨rfl, hbehind, rfl⟩] at hnone
    cases hnone
  | some rest =>
    obtain ⟨q, hq, hrest⟩ := List.exists_of_findSome?_eq_some hfound
    obtain ⟨rfl, hbehind, rfl⟩ := (afterQualifier?_eq_some_iff (hqualifiers q hq)).1 hrest
    rw [if_pos ⟨hq, hbehind⟩, trim_eq_trimLeft (last_behindFirstWord (isTrimmed_trim name))]
    rfl

lemma isTrimmed_withoutQualifier (h : IsTrimmed text) :
    IsTrimmed (withoutQualifier qualifiers text) := by
  rw [withoutQualifier]
  split
  · exact isTrimmed_trim _
  · exact h

lemma withoutQualifier_ne_nil (h : IsTrimmed text) (hne : text ≠ []) :
    withoutQualifier qualifiers text ≠ [] := by
  rw [withoutQualifier]
  split
  · next hword =>
    -- the last character of the text is still there, and it is not blank
    rw [Ne, trim_eq_nil_iff, List.all_eq_true]
    intro hblank
    have hlast := List.getLast?_eq_some_getLast hword.2
    have := last_behindFirstWord h _ hlast
    rw [hblank _ (List.mem_of_getLast? hlast)] at this
    cases this
  · exact hne

/-- Between a word and a name nothing is trimmed. -/
lemma exists_trim_append_eq {name : List Char} (hq : IsUnbroken q) (hne : q ≠ [])
    (hname : trim name ≠ []) (middle : List Char) : ∃ before, before.all isBlank = true ∧
      trim (q ++ middle ++ name) = q ++ (middle ++ before ++ trim name) := by
  obtain ⟨before, behind, hbefore, hbehind, hsplit⟩ := exists_eq_append_trim name
  refine ⟨before, hbefore, ?_⟩
  have htrimmed : IsTrimmed (q ++ (middle ++ before ++ trim name)) := by
    constructor
    case first =>
      obtain ⟨c, rest, rfl⟩ := List.exists_cons_of_ne_nil hne
      simpa using hq c List.mem_cons_self
    case last =>
      rw [← List.append_assoc, List.getLast?_append_of_ne_nil _ hname]
      exact (isTrimmed_trim name).last
  calc trim (q ++ middle ++ name)
      = trim ([] ++ (q ++ (middle ++ before ++ trim name)) ++ behind) := by
        conv_lhs => rw [hsplit]
        simp only [List.nil_append, List.append_assoc]
    _ = q ++ (middle ++ before ++ trim name) := trim_eq_of_append rfl hbehind htrimmed

lemma withoutQualifier_of_mem {blank name : List Char} (hmem : q ∈ qualifiers)
    (hq : IsUnbroken q) (hne : q ≠ []) (hblank : blank.all isBlank = true)
    (hsome : blank ≠ []) (hname : trim name ≠ []) :
    withoutQualifier qualifiers (trim (q ++ blank ++ name)) = trim name := by
  obtain ⟨before, hbefore, htrim⟩ := exists_trim_append_eq hq hne hname blank
  obtain ⟨c, rest, rfl⟩ := List.exists_cons_of_ne_nil hsome
  obtain ⟨hfirst, hbehind⟩ := firstWord_and_behindFirstWord_of_append hq
    (List.all_eq_true.1 hblank c List.mem_cons_self) (rest ++ before ++ trim name)
  have hfront : (c :: rest ++ before).all isBlank = true := by
    rw [List.all_append, hblank, hbefore]
    rfl
  rw [htrim, List.cons_append, List.cons_append, withoutQualifier, hfirst, hbehind,
    if_pos ⟨hmem, by simp⟩]
  have hrest : trim (c :: rest ++ before ++ trim name ++ []) = trim name :=
    trim_eq_of_append hfront rfl (isTrimmed_trim name)
  simpa using hrest

/-! ### Settings -/

namespace Settings

variable {s : Settings}

/-- No qualifier holds a blank character. -/
def QualifiersUnbroken (s : Settings) : Prop :=
  ∀ q ∈ s.qualifiers, IsUnbroken q.toList

instance (s : Settings) : Decidable s.QualifiersUnbroken :=
  List.decidableBAll (fun q : String => IsUnbroken q.toList) s.qualifiers

/-- What comes off a type name besides the blank characters at its ends is its first word, if that
is a qualifier. -/
structure StripsFirstWord (s : Settings) : Prop where
  toList_eq : ∀ name, (s.bareName name).toList =
    withoutQualifier (s.qualifiers.map String.toList) (trim name.toList)
  /-- It only matters which words are qualifiers. -/
  congr : ∀ other : Settings, (∀ q, q ∈ other.qualifiers ↔ q ∈ s.qualifiers) →
    ∀ name, other.bareName name = s.bareName name
  surrounded : ∀ before name behind, isBlankText before = true → isBlankText behind = true →
    s.bareName (before ++ name ++ behind) = s.bareName name
  isTrimmed : ∀ name, IsTrimmed (s.bareName name).toList
  ne_empty : ∀ name, isBlankText name = false → s.bareName name ≠ ""
  /-- A qualifier comes off, unless it is empty and so no word. -/
  qualified : ∀ q ∈ s.qualifiers, ∀ blank name, blank ≠ "" → isBlankText blank = true →
    isBlankText name = false → s.bareName (q ++ blank ++ name) =
      if q = "" then s.bareName name else String.ofList (trim name.toList)

lemma QualifiersUnbroken.toList_bareName (h : s.QualifiersUnbroken) (name : String) :
    (s.bareName name).toList =
      withoutQualifier (s.qualifiers.map String.toList) (trim name.toList) := by
  have hqualifiers : ∀ q ∈ s.qualifiers.map String.toList, IsUnbroken q :=
    List.forall_mem_map.2 h
  rw [bareName, String.toList_ofList, unqualified_eq hqualifiers]

lemma QualifiersUnbroken.bareName_congr (h : s.QualifiersUnbroken) {other : Settings}
    (hsame : ∀ q, q ∈ other.qualifiers ↔ q ∈ s.qualifiers) (name : String) :
    other.bareName name = s.bareName name := by
  have hother : other.QualifiersUnbroken := fun q hq => h q ((hsame q).1 hq)
  have hwords : ∀ word, word ∈ other.qualifiers.map String.toList ↔
      word ∈ s.qualifiers.map String.toList := by
    simp [hsame]
  rw [← String.toList_inj, hother.toList_bareName, h.toList_bareName, withoutQualifier,
    withoutQualifier]
  simp only [hwords]

lemma QualifiersUnbroken.bareName_append_append (h : s.QualifiersUnbroken)
    {before behind : String} (hbefore : isBlankText before = true)
    (hbehind : isBlankText behind = true) (name : String) :
    s.bareName (before ++ name ++ behind) = s.bareName name := by
  rw [← String.toList_inj, h.toList_bareName, h.toList_bareName, String.toList_append,
    String.toList_append, trim_append_append hbefore hbehind]

lemma QualifiersUnbroken.bareName_qualified (h : s.QualifiersUnbroken) {q blank name : String}
    (hq : q ∈ s.qualifiers) (hne : q ≠ "") (hsome : blank ≠ "") (hblank : isBlankText blank = true)
    (hname : isBlankText name = false) :
    s.bareName (q ++ blank ++ name) = String.ofList (trim name.toList) := by
  rw [← String.toList_inj, h.toList_bareName, String.toList_append, String.toList_append,
    String.toList_ofList]
  exact withoutQualifier_of_mem (List.mem_map_of_mem hq) (h q hq) (by simpa using hne) hblank
    (by simpa using hsome) (trim_toList_ne_nil hname)

/-- Taking qualifiers off has one meaning, whatever the qualifiers are, as long as none of them
holds a blank character. -/
theorem stripsFirstWord (h : s.QualifiersUnbroken) : s.StripsFirstWord := by
  constructor
  case toList_eq => exact h.toList_bareName
  case congr => exact fun _ hsame => h.bareName_congr hsame
  case surrounded => exact fun _ name _ hbefore hbehind =>
    h.bareName_append_append hbefore hbehind name
  case isTrimmed =>
    intro name
    rw [h.toList_bareName]
    exact isTrimmed_withoutQualifier (isTrimmed_trim _)
  case ne_empty =>
    intro name hname hempty
    have hnil := h.toList_bareName name
    rw [hempty] at hnil
    exact withoutQualifier_ne_nil (isTrimmed_trim _) (trim_toList_ne_nil hname) hnil.symm
  case qualified =>
    intro q hq blank name hsome hblank hname
    split
    · next hempty =>
      subst hempty
      simpa using h.bareName_append_append hblank (rfl : isBlankText "" = true) name
    · next hne => exact h.bareName_qualified hq hne hsome hblank hname

/-- One of these qualifiers begins another, and one of them is empty. -/
def nested : Settings where
  qualifiers := ["any", "", "anything"]

/-- The longer qualifier comes off although the shorter one is tried first. -/
theorem stripsFirstWord_nested : nested.QualifiersUnbroken ∧ nested.StripsFirstWord ∧
    nested.bareName ("anything" ++ "\u2003 " ++ "Client\n") = "Client" := by
  have hunbroken : nested.QualifiersUnbroken := by decide
  have hstrips := stripsFirstWord hunbroken
  refine ⟨hunbroken, hstrips, ?_⟩
  rw [hstrips.qualified "anything" (by decide) _ _ (by decide) (by decide) (by decide)]
  decide

/-- Blank characters behind an empty qualifier do not keep the next qualifier from coming off. -/
theorem bareName_behind_empty_qualifier : nested.QualifiersUnbroken ∧ "" ∈ nested.qualifiers ∧
    " " ≠ "" ∧ isBlankText " " = true ∧ isBlankText "any Client" = false ∧
    nested.bareName ("" ++ " " ++ "any Client") = "Client" ∧
    String.ofList (trim "any Client".toList) = "any Client" := by
  decide +kernel

end Settings

end Wiring
