import Wiring.Proofs.Layout.Agreement
import Wiring.Proofs.Signature.Text

/-!
# Reading statements back

As long as names are words, a call is known from its text, and a statement from the line that it
starts with. The brace behind a builder is no such line, so the lines of a body tell its statements
even if levels are not indented (`bodyLines_append_inj`).
-/

namespace Wiring

open Delimited

/-! ### Names -/

/-- A word without a point, which is the mark that a call of a member starts with. -/
def IsName (s : String) : Prop :=
  IsWord s ∧ '.' ∉ s.toList

instance : DecidablePred IsName := fun s =>
  inferInstanceAs (Decidable (IsWord s ∧ '.' ∉ s.toList))

lemma IsName.isOneLine {s : String} (hs : IsName s) : IsOneLine s := by
  intro hmem
  exact absurd (hs.1.2 '\n' hmem) (by decide)

lemma isWordChar_of_isAlphanum {c : Char} (hc : c.isAlphanum = true) : IsWordChar c ∧ c ≠ '.' := by
  have hcode : 48 ≤ c.toNat ∧ c.toNat ≤ 57 ∨ 65 ≤ c.toNat ∧ c.toNat ≤ 90 ∨
      97 ≤ c.toNat ∧ c.toNat ≤ 122 := by
    have hranges : (decide (c.val ≥ 65 ∧ c.val ≤ 90) || (c.val ≥ 97 && c.val ≤ 122) ||
        (c.val ≥ 48 && c.val ≤ 57)) = true := hc
    simp only [Bool.or_eq_true, Bool.and_eq_true, decide_eq_true_eq, ge_iff_le,
      UInt32.le_iff_toNat_le, UInt32.reduceToNat, Char.toNat_val] at hranges
    omega
  have hne : ∀ d : Char, d.toNat < 48 ∨ 57 < d.toNat ∧ d.toNat < 65 → c ≠ d := by
    rintro d hd rfl
    omega
  refine ⟨⟨?_, ?_⟩, hne '.' (by decide)⟩
  · simp only [Blank.isBlank, Blank.ranges, List.any_cons, List.any_nil, Bool.or_false,
      Bool.or_eq_false_iff, Bool.and_eq_false_iff, decide_eq_false_iff_not]
    omega
  · simp only [List.mem_cons, List.not_mem_nil, or_false, not_or]
    exact ⟨hne _ (by decide), hne _ (by decide), hne _ (by decide), hne _ (by decide)⟩

/-- Letters, digits and underscores make a name. -/
lemma isName_of_isAlphanum {s : String} (hs : s ≠ "")
    (hchars : ∀ c ∈ s.toList, c.isAlphanum = true ∨ c = '_') : IsName s := by
  have hname : ∀ c ∈ s.toList, IsWordChar c ∧ c ≠ '.' := by
    intro c hc
    rcases hchars c hc with halphanum | rfl
    · exact isWordChar_of_isAlphanum halphanum
    · decide
  exact ⟨⟨hs, fun c hc => (hname c hc).1⟩, fun hpoint => (hname _ hpoint).2 rfl⟩

/-! ### Calls -/

section Calls

variable {a a' : Argument} {c c' : Call} {callee callee' : Callee} {rest rest' : List Char}

namespace Argument

lemma toList_passed (a : Argument) : a.passed.toList =
    if a.label = "_" then a.bindingName.toList
    else a.label.toList ++ ':' :: ' ' :: a.bindingName.toList := by
  rw [passed]
  split <;> simp

/-- A name that is passed without a label is not followed by a colon. -/
lemma ne_of_endsArgument {s t : String} (hs : IsWord s) (ht : IsWord t)
    (hrest : EndsArgument rest) :
    s.toList ++ rest ≠ t.toList ++ ':' :: rest' := by
  intro h
  obtain ⟨_, rfl⟩ := hs.append_inj ht hrest.endsWord (endsWord_cons (by decide)) h
  simp [EndsArgument] at hrest

/-- An argument of a call is read off the front of a text up to what ends it. -/
lemma passed_append_inj (ha : a.Spelled IsName IsOneLine) (ha' : a'.Spelled IsName IsOneLine)
    (hrest : EndsArgument rest) (hrest' : EndsArgument rest')
    (h : a.passed.toList ++ rest = a'.passed.toList ++ rest') :
    (a.label, a.bindingName) = (a'.label, a'.bindingName) ∧ rest = rest' := by
  rw [toList_passed, toList_passed] at h
  split_ifs at h with hlabel hlabel' hlabel'
  · obtain ⟨hbinding, hrest⟩ :=
      ha.bindingName.1.append_inj ha'.bindingName.1 hrest.endsWord hrest'.endsWord h
    exact ⟨Prod.ext (hlabel.trans hlabel'.symm) hbinding, hrest⟩
  · rw [List.append_assoc] at h
    exact absurd h (ne_of_endsArgument ha.bindingName.1 ha'.label.1 hrest)
  · rw [List.append_assoc] at h
    exact absurd h.symm (ne_of_endsArgument ha'.bindingName.1 ha.label.1 hrest')
  · simp only [List.append_assoc, List.cons_append] at h
    obtain ⟨hlabel, h⟩ := ha.label.1.append_inj ha'.label.1 (endsWord_cons (by decide))
      (endsWord_cons (by decide)) h
    obtain ⟨hbinding, hrest⟩ := ha.bindingName.1.append_inj ha'.bindingName.1 hrest.endsWord
      hrest'.endsWord (by simpa using h)
    exact ⟨Prod.ext hlabel hbinding, hrest⟩

lemma not_endsArgument_passed (ha : a.Spelled IsName IsOneLine) :
    ¬ EndsArgument (a.passed.toList ++ rest) := by
  apply mt EndsArgument.endsWord
  rw [toList_passed]
  split
  · exact ha.bindingName.1.not_endsWord
  · rw [List.append_assoc]
    exact ha.label.1.not_endsWord

end Argument

/-- A member is called with a point in front of its name, a function without. -/
lemma Callee.text_append_inj (hname : IsName callee.name) (hname' : IsName callee'.name)
    (hrest : EndsWord rest) (hrest' : EndsWord rest')
    (h : callee.text.toList ++ rest = callee'.text.toList ++ rest') :
    callee = callee' ∧ rest = rest' := by
  have hpoint : ∀ {name : String}, IsName name → ∀ behind behind' : List Char,
      name.toList ++ behind ≠ '.' :: behind' := by
    rintro name hname behind behind' h
    obtain ⟨c, chars, hcons, _⟩ := hname.1.exists_cons
    obtain rfl : c = '.' := by simpa [hcons] using (List.cons.inj (hcons ▸ h)).1
    exact hname.2 (hcons ▸ List.mem_cons_self)
  cases callee with
  | function name =>
    cases callee' with
    | function name' =>
      obtain ⟨rfl, hrest⟩ := hname.1.append_inj hname'.1 hrest hrest' h
      exact ⟨rfl, hrest⟩
    | member name' => exact absurd (by simpa [text] using h) (hpoint hname rest _)
  | member name =>
    cases callee' with
    | function name' => exact absurd (by simpa [text] using h.symm) (hpoint hname' rest' _)
    | member name' =>
      obtain ⟨rfl, hrest⟩ := hname.1.append_inj hname'.1 hrest hrest' (by simpa [text] using h)
      exact ⟨rfl, hrest⟩

lemma Call.toList_text (c : Call) : c.text.toList = c.callee.text.toList ++
    '(' :: ([',', ' '].intercalate (c.arguments.map fun a => a.passed.toList) ++ [')']) := by
  simp [text, Function.comp_def]

/-- Calls with the same text call the same and pass on the same bindings under the same labels. -/
lemma Call.agrees_of_text_eq (hc : c.Spelled IsName IsOneLine) (hc' : c'.Spelled IsName IsOneLine)
    (h : c.text = c'.text) : c.Agrees c' := by
  have htext := congrArg String.toList h
  rw [toList_text, toList_text] at htext
  obtain ⟨hcallee, htext⟩ := Callee.text_append_inj hc.callee hc'.callee
    (endsWord_cons (by decide)) (endsWord_cons (by decide)) htext
  obtain ⟨harguments, _⟩ := arguments_append_inj
    (fun a ha b hb _ _ => Argument.passed_append_inj (hc.arguments a ha) (hc'.arguments b hb))
    (fun a ha _ => Argument.not_endsArgument_passed (hc.arguments a ha))
    (fun b hb _ => Argument.not_endsArgument_passed (hc'.arguments b hb))
    (List.cons.inj htext).2
  exact ⟨hcallee, map_eq_map_iff_forall₂.2 harguments⟩

end Calls

/-! ### Statements -/

namespace Body

variable {b b' : Body}

/-- The bodies start with statements that are alike as far as one line shows them, or both have no
statement. -/
inductive OpensAlike : Body → Body → Prop
  | done : OpensAlike .done .done
  | bind {name : String} {call call' : Call} {rest rest' : Body} :
    call.Agrees call' → OpensAlike (.bind name call rest) (.bind name call' rest')
  | intercept {interceptor : String} {builder builder' rest rest' : Body} :
    OpensAlike (.intercept interceptor builder rest) (.intercept interceptor builder' rest')
  | give {call call' : Call} {rest rest' : Body} :
    call.Agrees call' → OpensAlike (.give call rest) (.give call' rest')

/-- An interceptor is followed by a brace, what is called by its arguments. -/
lemma opening_intercept_ne_give {interceptor : String} {builder rest rest' : Body} {call : Call}
    (hinterceptor : IsName interceptor) (hcall : call.Spelled IsName IsOneLine) :
    (intercept interceptor builder rest).opening ≠ (give call rest').opening := by
  intro h
  have htext : (Callee.function interceptor).text.toList ++ [' ', '\x7b'] =
      call.callee.text.toList ++ '(' ::
        ([',', ' '].intercalate (call.arguments.map fun a => a.passed.toList) ++ [')']) := by
    simpa [opening, Call.toList_text, Callee.text] using congrArg String.toList h
  obtain ⟨_, hmark⟩ := Callee.text_append_inj (by exact hinterceptor) hcall.callee
    (endsWord_cons (by decide)) (endsWord_cons (by decide)) htext
  exact absurd (List.cons.inj hmark).1 (by decide)

/-- A statement is known from the line that it starts with. -/
lemma opensAlike_of_opening_eq (hb : b.Spelled IsName IsOneLine) (hb' : b'.Spelled IsName IsOneLine)
    (h : b.opening = b'.opening) : b.OpensAlike b' := by
  have hchars := congrArg String.toList h
  cases b with
  | done =>
    cases b' with
    | done => exact .done
    | _ => simp [opening] at hchars
  | bind name call rest =>
    cases b' with
    | bind name' call' rest' =>
      have htext : name.toList ++ ' ' :: '=' :: ' ' :: call.text.toList =
          name'.toList ++ ' ' :: '=' :: ' ' :: call'.text.toList := by
        simpa [opening] using hchars
      obtain ⟨rfl, hcall⟩ := hb.1.1.append_inj hb'.1.1 (endsWord_cons (by decide))
        (endsWord_cons (by decide)) htext
      have hcall : call.text = call'.text := String.toList_inj.1 (by simpa using hcall)
      exact .bind (Call.agrees_of_text_eq hb.2.1 hb'.2.1 hcall)
    | _ => simp [opening] at hchars
  | intercept interceptor builder rest =>
    cases b' with
    | intercept interceptor' builder' rest' =>
      obtain rfl : interceptor = interceptor' := by simpa [opening] using h
      exact .intercept
    | give call' rest' => exact absurd h (opening_intercept_ne_give hb.1 hb'.1)
    | _ => simp [opening] at hchars
  | give call rest =>
    cases b' with
    | intercept interceptor' builder' rest' =>
      exact absurd h.symm (opening_intercept_ne_give hb'.1 hb.1)
    | give call' rest' =>
      have hcall : call.text = call'.text := by simpa [opening] using h
      exact .give (Call.agrees_of_text_eq hb.1 hb'.1 hcall)
    | _ => simp [opening] at hchars

end Body

namespace LayoutOptions

variable {o : LayoutOptions} {level level' closing : Nat} {b b' : Body} {rest rest' : List String}

/-- What a line says does not start with a space, so it is known from the line at any level. -/
lemma opening_eq_of_indented_eq (h : o.indented level b.opening = o.indented level' b'.opening) :
    b.opening = b'.opening := by
  have hchars := congrArg String.toList h
  rw [toList_indented, toList_indented] at hchars
  have hspaces : ∀ n : Nat, ∀ c ∈ List.replicate n ' ', c = ' ' :=
    fun _ _ hc => List.eq_of_mem_replicate hc
  have hends : ∀ b : Body, ∀ c ∈ b.opening.toList.head?, c ≠ ' ' := by
    intro b c hc
    obtain ⟨d, chars, hcons, hd, _⟩ := b.exists_opening_eq_cons
    obtain rfl : d = c := by simpa [hcons] using hc
    exact hd
  exact String.toList_inj.1
    (append_inj_of_ends (hspaces _) (hspaces _) (hends b) (hends b') hchars).2

/-- A body is followed by a brace, so there is a line that it opens. -/
lemma exists_bodyLines_append_eq_cons (o : LayoutOptions) (level closing : Nat) (b : Body)
    (rest : List String) : ∃ level' behind,
      o.bodyLines level b ++ o.indented closing Body.done.opening :: rest =
        o.indented level' b.opening :: behind := by
  by_cases hb : b = .done
  · subst hb
    exact ⟨closing, rest, rfl⟩
  · obtain ⟨behind, hlines⟩ := o.exists_bodyLines_eq_cons level hb
    exact ⟨level, _, by rw [hlines, List.cons_append]⟩

lemma opensAlike_of_append_eq (hb : b.Spelled IsName IsOneLine) (hb' : b'.Spelled IsName IsOneLine)
    (h : o.bodyLines level b ++ o.indented closing Body.done.opening :: rest =
      o.bodyLines level b' ++ o.indented closing Body.done.opening :: rest') : b.OpensAlike b' := by
  obtain ⟨_, _, hlines⟩ := o.exists_bodyLines_append_eq_cons level closing b rest
  obtain ⟨_, _, hlines'⟩ := o.exists_bodyLines_append_eq_cons level closing b' rest'
  rw [hlines, hlines'] at h
  exact Body.opensAlike_of_opening_eq hb hb' (opening_eq_of_indented_eq (List.cons.inj h).1)

/-- A body is read off the front of some lines up to the brace that closes it. -/
theorem bodyLines_append_inj (hb : b.Spelled IsName IsOneLine) (hb' : b'.Spelled IsName IsOneLine)
    (h : o.bodyLines level b ++ o.indented closing Body.done.opening :: rest =
      o.bodyLines level b' ++ o.indented closing Body.done.opening :: rest') :
    b.Agrees b' ∧ rest = rest' := by
  have halike := opensAlike_of_append_eq hb hb' h
  induction b generalizing level closing b' rest rest' with
  | done =>
    cases halike
    exact ⟨.done, (List.cons.inj h).2⟩
  | bind name call more ih =>
    cases halike with
    | bind hcall =>
      rw [bodyLines_bind, bodyLines_bind] at h
      have h := (List.cons.inj h).2
      obtain ⟨hmore, hrest⟩ :=
        ih hb.2.2 hb'.2.2 h (opensAlike_of_append_eq hb.2.2 hb'.2.2 h)
      exact ⟨.bind hcall hmore, hrest⟩
  | intercept interceptor builder more ihbuilder ih =>
    cases halike with
    | intercept =>
      simp only [bodyLines_intercept, List.cons_append, List.append_assoc] at h
      have h := (List.cons.inj h).2
      -- the brace that closes the builder is at the level of the statement
      obtain ⟨hbuilder, h⟩ :=
        ihbuilder hb.2.1 hb'.2.1 h (opensAlike_of_append_eq hb.2.1 hb'.2.1 h)
      obtain ⟨hmore, hrest⟩ :=
        ih hb.2.2 hb'.2.2 h (opensAlike_of_append_eq hb.2.2 hb'.2.2 h)
      exact ⟨.intercept hbuilder hmore, hrest⟩
  | give call more ih =>
    cases halike with
    | give hcall =>
      rw [bodyLines_give, bodyLines_give] at h
      have h := (List.cons.inj h).2
      obtain ⟨hmore, hrest⟩ := ih hb.2 hb'.2 h (opensAlike_of_append_eq hb.2 hb'.2 h)
      exact ⟨.give hcall hmore, hrest⟩

lemma indented_inj {s t : String} : o.indented level s = o.indented level t ↔ s = t := by
  rw [indented, indented, String.append_right_inj]

/-- A routine is read off the front of some lines. -/
theorem routineLines_append_inj {f f' : Routine} (hf : f.Spelled IsName IsOneLine)
    (hf' : f'.Spelled IsName IsOneLine)
    (h : o.routineLines f ++ rest = o.routineLines f' ++ rest') : f.Agrees f' ∧ rest = rest' := by
  simp only [routineLines_eq, List.cons_append, List.append_assoc, List.nil_append] at h
  obtain ⟨hsignature, h⟩ := List.cons.inj h
  obtain ⟨hbody, hrest⟩ := bodyLines_append_inj hf.body hf'.body h
  have hsignature : f.signature.text = f'.signature.text :=
    String.append_left_inj _ |>.1 (indented_inj.1 hsignature)
  exact ⟨⟨hsignature, hbody⟩, hrest⟩

end LayoutOptions

end Wiring
