import Wiring.Proofs.Delimited
import Wiring.Proofs.Sameness
import Wiring.Proofs.Spelling

/-!
# Signatures and their texts

A signature is compared by its parts and shown as a text. As long as names hold no mark that stands
between the parts, and the parentheses and commas of argument types are nested, both tell the same
signatures apart.
-/

namespace Wiring

open Delimited

/-! ### Words and nested types -/

/-- A character that is neither blank nor one of the marks between the parts of a signature. -/
def IsWordChar (c : Char) : Prop :=
  Blank.isBlank c = false ∧ c ∉ [':', ',', '(', ')']

instance : DecidablePred IsWordChar := fun c =>
  inferInstanceAs (Decidable (Blank.isBlank c = false ∧ c ∉ [':', ',', '(', ')']))

/-- A name that can be told from what stands around it: it is not empty and holds no blank
character, colon, comma or parenthesis. -/
def IsWord (s : String) : Prop :=
  s ≠ "" ∧ ∀ c ∈ s.toList, IsWordChar c

instance : DecidablePred IsWord := fun s =>
  have := List.decidableBAll IsWordChar s.toList
  inferInstanceAs (Decidable (s ≠ "" ∧ ∀ c ∈ s.toList, IsWordChar c))

/-- The parentheses of a text fit together, with `depth` of them open before it and none behind it,
and its commas stand within parentheses. -/
def nests (depth : Nat) : List Char → Bool
  | [] => depth == 0
  | c :: rest =>
    if c = '(' then nests (depth + 1) rest
    else if c = ')' then 0 < depth && nests (depth - 1) rest
    else if c = ',' then 0 < depth && nests depth rest
    else nests depth rest

/-- A type with balanced parentheses and commas only within them. -/
def IsNested (s : String) : Prop :=
  nests 0 s.toList = true

instance : DecidablePred IsNested := fun s => inferInstanceAs (Decidable (nests 0 s.toList = true))

/-- A signature whose names are words and whose argument types are nested. -/
structure Signature.IsPlain (s : Signature) : Prop where
  name : IsWord s.name
  arguments : ∀ a ∈ s.arguments, a.Spelled IsWord IsNested

instance : DecidablePred Signature.IsPlain := fun s =>
  decidable_of_iff (IsWord s.name ∧ ∀ a ∈ s.arguments, a.Spelled IsWord IsNested)
    ⟨fun h => ⟨h.1, h.2⟩, fun h => ⟨h.name, h.arguments⟩⟩

/-- What follows does not go on with a word. -/
def EndsWord (rest : List Char) : Prop :=
  ∀ c ∈ rest.head?, ¬ IsWordChar c

/-- What may follow an argument: a comma, or the closing parenthesis. -/
def EndsArgument (rest : List Char) : Prop :=
  ∃ c ∈ rest.head?, c = ',' ∨ c = ')'

lemma endsWord_cons {c : Char} {rest : List Char} (hc : ¬ IsWordChar c) : EndsWord (c :: rest) := by
  simpa [EndsWord] using hc

lemma EndsArgument.endsWord {rest : List Char} (h : EndsArgument rest) : EndsWord rest := by
  obtain ⟨c, hc, hmark⟩ := h
  intro d hd
  obtain rfl := Option.mem_unique hc hd
  rcases hmark with rfl | rfl <;> decide

namespace IsWord

variable {s t : String} {rest rest' : List Char}

lemma exists_cons (hs : IsWord s) : ∃ c rest, s.toList = c :: rest ∧ IsWordChar c := by
  obtain ⟨c, rest, hcons⟩ := List.exists_cons_of_ne_nil (mt String.toList_eq_nil_iff.1 hs.1)
  exact ⟨c, rest, hcons, hs.2 c (hcons ▸ List.mem_cons_self)⟩

lemma not_endsWord (hs : IsWord s) : ¬ EndsWord (s.toList ++ rest) := by
  obtain ⟨c, chars, hcons, hc⟩ := hs.exists_cons
  simpa [EndsWord, hcons] using hc

/-- A word is read off the front of a text up to what ends it. -/
lemma append_inj (hs : IsWord s) (ht : IsWord t) (hrest : EndsWord rest) (hrest' : EndsWord rest')
    (h : s.toList ++ rest = t.toList ++ rest') : s = t ∧ rest = rest' := by
  obtain ⟨hchars, hrest⟩ := append_inj_of_ends hs.2 ht.2 hrest hrest' h
  exact ⟨String.toList_inj.1 hchars, hrest⟩

end IsWord

/-- A nested type ends where a parenthesis closes that it has not opened, or at a comma that is
within no parenthesis. -/
lemma nests_append_inj {depth : Nat} {s t rest rest' : List Char} (hs : nests depth s = true)
    (ht : nests depth t = true) (hrest : EndsArgument rest) (hrest' : EndsArgument rest')
    (h : s ++ rest = t ++ rest') : s = t ∧ rest = rest' := by
  induction s generalizing depth t with
  | nil =>
    cases t with
    | nil => exact ⟨rfl, h⟩
    | cons d t =>
      obtain rfl : depth = 0 := by simpa [nests] using hs
      obtain rfl : rest = d :: (t ++ rest') := h
      obtain ⟨c, hc, hmark⟩ := hrest
      obtain rfl : d = c := by simpa using hc
      rcases hmark with rfl | rfl <;> simp [nests] at ht
  | cons c s ih =>
    cases t with
    | nil =>
      obtain rfl : depth = 0 := by simpa [nests] using ht
      obtain rfl : c :: (s ++ rest) = rest' := h
      obtain ⟨d, hd, hmark⟩ := hrest'
      obtain rfl : c = d := by simpa using hd
      rcases hmark with rfl | rfl <;> simp [nests] at hs
    | cons d t =>
      obtain ⟨rfl, hbehind⟩ := List.cons.inj h
      -- the character opens, closes or separates on both sides alike
      have hstep : ∃ depth', nests depth' s = true ∧ nests depth' t = true := by
        simp only [nests] at hs ht
        split_ifs at hs ht with hopen hclose hcomma
        · exact ⟨_, hs, ht⟩
        · exact ⟨_, (Bool.and_eq_true_iff.1 hs).2, (Bool.and_eq_true_iff.1 ht).2⟩
        · exact ⟨_, (Bool.and_eq_true_iff.1 hs).2, (Bool.and_eq_true_iff.1 ht).2⟩
        · exact ⟨_, hs, ht⟩
      obtain ⟨depth', hs', ht'⟩ := hstep
      obtain ⟨rfl, hrest⟩ := ih hs' ht' hbehind
      exact ⟨rfl, hrest⟩

/-! ### Arguments -/

namespace Argument

variable {a b : Argument} {rest rest' : List Char}

/-- The binding name of an argument as far as it is shown, set apart from the label. -/
def shownBinding (a : Argument) : List Char :=
  if a.bindingName = a.label then [] else ' ' :: a.bindingName.toList

lemma toList_text (a : Argument) :
    a.text.toList = a.label.toList ++ (a.shownBinding ++ ':' :: ' ' :: a.typeName.toList) := by
  unfold text shownBinding
  split <;> simp

lemma text_congr (h : (a == b) = true) : a.text = b.text := by
  obtain ⟨hlabel, hbinding, htype⟩ := beq_iff_fields.1 h
  rw [text, text, hlabel, hbinding, htype]

lemma bindingName_eq_of_shownBinding_eq (hlabel : a.label = b.label)
    (h : a.shownBinding = b.shownBinding) : a.bindingName = b.bindingName := by
  unfold shownBinding at h
  split_ifs at h with ha hb
  · rw [ha, hb, hlabel]
  · exact String.toList_inj.1 (List.cons.inj h).2

lemma ne_colon_of_mem_shownBinding (ha : IsWord a.bindingName) : ∀ c ∈ a.shownBinding, c ≠ ':' := by
  intro c hc
  unfold shownBinding at hc
  split at hc
  · cases hc
  · rcases List.mem_cons.1 hc with rfl | hc
    · decide
    · rintro rfl
      exact (ha.2 _ hc).2 (by simp)

lemma endsWord_shownBinding : EndsWord (a.shownBinding ++ ':' :: rest) := by
  unfold shownBinding
  split <;> exact endsWord_cons (by decide)

/-- An argument is read off the front of a text up to what ends it. -/
lemma text_append_inj (ha : a.Spelled IsWord IsNested) (hb : b.Spelled IsWord IsNested)
    (hrest : EndsArgument rest) (hrest' : EndsArgument rest')
    (h : a.text.toList ++ rest = b.text.toList ++ rest') : (a == b) = true ∧ rest = rest' := by
  simp only [toList_text, List.append_assoc, List.cons_append] at h
  obtain ⟨hlabel, h⟩ := ha.label.append_inj hb.label endsWord_shownBinding endsWord_shownBinding h
  obtain ⟨hbinding, h⟩ := append_inj_of_ends (ne_colon_of_mem_shownBinding ha.bindingName)
    (ne_colon_of_mem_shownBinding hb.bindingName) (by simp) (by simp) h
  have htypes : a.typeName.toList ++ rest = b.typeName.toList ++ rest' := by simpa using h
  obtain ⟨htype, hrest⟩ := nests_append_inj ha.typeName hb.typeName hrest hrest' htypes
  exact ⟨beq_iff_fields.2 ⟨hlabel, bindingName_eq_of_shownBinding_eq hlabel hbinding,
    String.toList_inj.1 htype⟩, hrest⟩

/-- An argument starts with its label. -/
lemma not_endsArgument_text (ha : IsWord a.label) : ¬ EndsArgument (a.text.toList ++ rest) := by
  rw [toList_text, List.append_assoc]
  exact mt EndsArgument.endsWord ha.not_endsWord

end Argument

/-- Arguments in parentheses are read off the front of a text one by one, if each of them can be and
none starts with what may follow one. -/
lemma arguments_append_inj {text : Argument → List Char} {same : Argument → Argument → Prop}
    {as bs : List Argument} {rest rest' : List Char}
    (hread : ∀ a ∈ as, ∀ b ∈ bs, ∀ rest rest', EndsArgument rest → EndsArgument rest' →
      text a ++ rest = text b ++ rest' → same a b ∧ rest = rest')
    (has : ∀ a ∈ as, ∀ rest, ¬ EndsArgument (text a ++ rest))
    (hbs : ∀ b ∈ bs, ∀ rest, ¬ EndsArgument (text b ++ rest))
    (h : [',', ' '].intercalate (as.map text) ++ ')' :: rest =
      [',', ' '].intercalate (bs.map text) ++ ')' :: rest') :
    List.Forall₂ same as bs ∧ rest = rest' := by
  have hcomma : ∀ rest, EndsArgument ([',', ' '] ++ rest) := fun _ => ⟨',', rfl, .inl rfl⟩
  have hclosing : ∀ rest : List Char, EndsArgument (')' :: rest) ∧
      ∀ rest', ')' :: rest ≠ [',', ' '] ++ rest' :=
    fun rest => ⟨⟨')', rfl, .inr rfl⟩, by simp⟩
  obtain ⟨harguments, hrest⟩ := forall₂_of_intercalate hread
    (fun a ha rest => ⟨hcomma _, has a ha rest⟩) (fun b hb rest => ⟨hcomma _, hbs b hb rest⟩)
    (hclosing rest) (hclosing rest') h
  exact ⟨harguments, (List.cons.inj hrest).2⟩

/-! ### Signatures -/

namespace Signature

variable {s t : Signature}

lemma toList_text (s : Signature) : s.text.toList = (s.scope.keyword ++ "func ").toList ++
    (s.name.toList ++ '(' :: ([',', ' '].intercalate
      (s.arguments.map fun a => a.text.toList) ++ ')' :: s.returnText.toList)) := by
  simp [text, Function.comp_def]

lemma arguments_beq_iff_forall₂ {l l' : List Argument} :
    (l == l') = true ↔ List.Forall₂ (fun a b => (a == b) = true) l l' := by
  rw [Sameness.arguments_beq_iff, map_eq_map_iff_forall₂]
  simp only [Argument.beq_iff]

lemma text_congr (h : (s == t) = true) : s.text = t.text := by
  obtain ⟨hscope, hname, harguments, hreturn⟩ := Sameness.signature_beq_iff.1 h
  have htexts : s.arguments.map Argument.text = t.arguments.map Argument.text :=
    map_eq_map_iff_forall₂.2
      ((arguments_beq_iff_forall₂.1 harguments).imp fun _ _ => Argument.text_congr)
  simp only [text, returnText, hscope, hname, htexts, hreturn]

lemma scope_append_inj {scope scope' : Scope} {rest rest' : List Char}
    (h : (scope.keyword ++ "func ").toList ++ rest = (scope'.keyword ++ "func ").toList ++ rest') :
    scope = scope' ∧ rest = rest' := by
  cases scope <;> cases scope' <;> simp_all [Scope.keyword]

lemma returnTypeName_eq_of_returnText_eq (h : s.returnText = t.returnText) :
    s.returnTypeName = t.returnTypeName := by
  unfold returnText at h
  split at h <;> split at h <;> simp_all

/-- Signatures that are shown by the same text are the same. -/
lemma beq_of_text_eq (hs : s.IsPlain) (ht : t.IsPlain) (h : s.text = t.text) : (s == t) = true := by
  have htext := congrArg String.toList h
  rw [toList_text, toList_text] at htext
  obtain ⟨hscope, htext⟩ := scope_append_inj htext
  obtain ⟨hname, htext⟩ := hs.name.append_inj ht.name (endsWord_cons (by decide))
    (endsWord_cons (by decide)) htext
  obtain ⟨harguments, hreturn⟩ := arguments_append_inj
    (fun a ha b hb _ _ => Argument.text_append_inj (hs.arguments a ha) (ht.arguments b hb))
    (fun a ha _ => Argument.not_endsArgument_text (hs.arguments a ha).label)
    (fun b hb _ => Argument.not_endsArgument_text (ht.arguments b hb).label)
    (List.cons.inj htext).2
  have hreturn := returnTypeName_eq_of_returnText_eq (String.toList_inj.1 hreturn)
  exact Sameness.signature_beq_iff.2
    ⟨hscope, hname, arguments_beq_iff_forall₂.2 harguments, hreturn⟩

/-- Signatures are the same exactly if they are shown by the same text. -/
theorem beq_iff_text_eq (hs : s.IsPlain) (ht : t.IsPlain) : (s == t) = true ↔ s.text = t.text :=
  ⟨text_congr, beq_of_text_eq hs ht⟩

end Signature

end Wiring
