import Wiring.Proofs.Layout.Lines

/-!
# The lines of bodies

A statement takes one line, and one that hands a builder to an interceptor takes a line before and a
line behind those of the builder. The place of a statement in a body therefore tells its line, and
the interceptors around it tell how far the line is indented (`isPrefix_drop_bodyLines`).
-/

namespace Wiring

open Blank

/-! ### Lines that are not blank -/

@[simp] lemma isBlankText_append (s t : String) :
    isBlankText (s ++ t) = (isBlankText s && isBlankText t) := by
  simp [isBlankText]

namespace Body

/-- The number of lines of a body. -/
def weight : Body → Nat
  | .done => 0
  | .bind _ _ rest => 1 + rest.weight
  | .intercept _ builder rest => 2 + builder.weight + rest.weight
  | .give _ rest => 1 + rest.weight

/-- What the first line of a body says, which is the brace behind it if it has no statement. -/
def opening : Body → String
  | .done => "\x7d"
  | .bind name call _ => "let " ++ name ++ " = " ++ call.text
  | .intercept interceptor _ _ => "return " ++ interceptor ++ " \x7b"
  | .give call _ => "return " ++ call.text

/-- The statements that start in line `i` of a body, counted from zero, under `k` of its
interceptors. -/
inductive Stands : Body → Nat → Nat → Body → Prop
  | here {b : Body} : b ≠ .done → Stands b 0 0 b
  | behindBind {name : String} {call : Call} {rest s : Body} {k i : Nat} :
    Stands rest k i s → Stands (.bind name call rest) k (i + 1) s
  | within {interceptor : String} {builder rest s : Body} {k i : Nat} :
    Stands builder k i s → Stands (.intercept interceptor builder rest) (k + 1) (i + 1) s
  | behindIntercept {interceptor : String} {builder rest s : Body} {k i : Nat} :
    Stands rest k i s →
      Stands (.intercept interceptor builder rest) k (i + (2 + builder.weight)) s
  | behindGive {call : Call} {rest s : Body} {k i : Nat} :
    Stands rest k i s → Stands (.give call rest) k (i + 1) s

variable {b s : Body} {k i : Nat}

lemma exists_opening_eq_cons (b : Body) :
    ∃ c rest, b.opening.toList = c :: rest ∧ c ≠ ' ' ∧ isBlank c = false := by
  cases b with
  | done => exact ⟨'\x7d', _, rfl, by decide, by decide⟩
  | bind name call rest => exact ⟨'l', _, by simp [opening]; rfl, by decide, by decide⟩
  | intercept interceptor builder rest =>
    exact ⟨'r', _, by simp [opening]; rfl, by decide, by decide⟩
  | give call rest => exact ⟨'r', _, by simp [opening]; rfl, by decide, by decide⟩

lemma isBlankText_opening (b : Body) : isBlankText b.opening = false := by
  obtain ⟨c, rest, hcons, _, hc⟩ := b.exists_opening_eq_cons
  simp [isBlankText, hcons, hc]

lemma Stands.ne_done (h : b.Stands k i s) : s ≠ .done := by
  induction h with
  | here hb => exact hb
  | behindBind _ ih => exact ih
  | within _ ih => exact ih
  | behindIntercept _ ih => exact ih
  | behindGive _ ih => exact ih

/-- The line of a body, counted from zero, is the brace behind the builder of a statement. -/
def Closes (b : Body) (i : Nat) : Prop :=
  ∃ k j interceptor builder rest, b.Stands k j (.intercept interceptor builder rest) ∧
    i = j + 1 + builder.weight

lemma stands_or_closes_add {b' : Body} {j : Nat}
    (hstands : ∀ k l s, b.Stands k l s → ∃ k', b'.Stands k' (l + j) s)
    (h : (∃ k s, b.Stands k i s) ∨ b.Closes i) :
    (∃ k s, b'.Stands k (i + j) s) ∨ b'.Closes (i + j) := by
  rcases h with ⟨k, s, hs⟩ | ⟨k, l, interceptor, builder, rest, hs, rfl⟩
  · obtain ⟨k', hs⟩ := hstands k i s hs
    exact .inl ⟨k', s, hs⟩
  · obtain ⟨k', hs⟩ := hstands k l _ hs
    exact .inr ⟨k', l + j, interceptor, builder, rest, hs, by omega⟩

/-- Every line of a body opens a statement or closes a builder. -/
lemma stands_or_closes (hi : i < b.weight) : (∃ k s, b.Stands k i s) ∨ b.Closes i := by
  induction b generalizing i with
  | done => cases hi
  | bind name call rest ih =>
    cases i with
    | zero => exact .inl ⟨0, _, .here nofun⟩
    | succ i =>
      rw [weight] at hi
      exact stands_or_closes_add (fun k _ _ hs => ⟨k, .behindBind hs⟩) (ih (by omega))
  | intercept interceptor builder rest ihbuilder ih =>
    rw [weight] at hi
    -- the line of the statement, those of the builder, the brace, and what is behind
    rcases Nat.lt_trichotomy i (builder.weight + 1) with hlt | rfl | hgt
    · cases i with
      | zero => exact .inl ⟨0, _, .here nofun⟩
      | succ i =>
        exact stands_or_closes_add (fun k _ _ hs => ⟨k + 1, .within hs⟩) (ihbuilder (by omega))
    · exact .inr ⟨0, 0, interceptor, builder, rest, .here nofun, by omega⟩
    · obtain ⟨j, rfl⟩ : ∃ j, i = j + (2 + builder.weight) := ⟨i - (2 + builder.weight), by omega⟩
      exact stands_or_closes_add (fun k _ _ hs => ⟨k, .behindIntercept hs⟩) (ih (by omega))
  | give call rest ih =>
    cases i with
    | zero => exact .inl ⟨0, _, .here nofun⟩
    | succ i =>
      rw [weight] at hi
      exact stands_or_closes_add (fun k _ _ hs => ⟨k, .behindGive hs⟩) (ih (by omega))

end Body

/-! ### Bodies -/

namespace LayoutOptions

variable {o : LayoutOptions} {level k i : Nat} {name interceptor line : String} {call : Call}
  {b builder rest s : Body} {f : Routine}

/-- A line that says what is given, indented for its level. -/
def indented (o : LayoutOptions) (level : Nat) (content : String) : String :=
  o.indentation level ++ content

lemma toList_indented (o : LayoutOptions) (level : Nat) (content : String) :
    (o.indented level content).toList =
      List.replicate (o.indent * level) ' ' ++ content.toList := by
  simp [indented, indentation]

lemma isBlankText_indented (o : LayoutOptions) (level : Nat) (content : String) :
    isBlankText (o.indented level content) = isBlankText content := by
  have hindent : (List.replicate (o.indent * level) ' ').all isBlank = true := by
    rw [List.all_replicate]
    split <;> decide
  rw [isBlankText, toList_indented, List.all_append, hindent, Bool.true_and, isBlankText]

/-! ### The lines of each statement -/

lemma bodyLines_bind : o.bodyLines level (.bind name call rest) =
    o.indented level (Body.bind name call rest).opening :: o.bodyLines level rest := by
  simp only [bodyLines, indented, Body.opening, String.append_assoc]

lemma bodyLines_intercept : o.bodyLines level (.intercept interceptor builder rest) =
    o.indented level (Body.intercept interceptor builder rest).opening ::
      (o.bodyLines (level + 1) builder ++
        o.indented level Body.done.opening :: o.bodyLines level rest) := by
  simp only [bodyLines, indented, Body.opening, String.append_assoc, List.cons_append]

lemma bodyLines_give : o.bodyLines level (.give call rest) =
    o.indented level (Body.give call rest).opening :: o.bodyLines level rest := by
  simp only [bodyLines, indented, Body.opening, String.append_assoc]

lemma exists_bodyLines_eq_cons (o : LayoutOptions) (level : Nat) (hb : b ≠ .done) :
    ∃ behind, o.bodyLines level b = o.indented level b.opening :: behind := by
  cases b with
  | done => exact absurd rfl hb
  | bind name call rest => exact ⟨_, bodyLines_bind⟩
  | intercept interceptor builder rest => exact ⟨_, bodyLines_intercept⟩
  | give call rest => exact ⟨_, bodyLines_give⟩

lemma length_bodyLines (o : LayoutOptions) : (o.bodyLines level b).length = b.weight := by
  induction b generalizing level with
  | done => rfl
  | bind name call rest ih =>
    rw [bodyLines_bind, List.length_cons, ih, Body.weight, Nat.add_comm]
  | intercept interceptor builder rest ihbuilder ih =>
    rw [bodyLines_intercept, List.length_cons, List.length_append, List.length_cons, ihbuilder, ih,
      Body.weight]
    omega
  | give call rest ih => rw [bodyLines_give, List.length_cons, ih, Body.weight, Nat.add_comm]

/-- From the line of a statement on, a body goes on with the lines of that statement. -/
lemma isPrefix_drop_bodyLines (h : b.Stands k i s) :
    o.bodyLines (level + k) s <+: (o.bodyLines level b).drop i := by
  induction h generalizing level with
  | here _ => exact List.prefix_rfl
  | behindBind _ ih =>
    rw [bodyLines_bind, List.drop_succ_cons]
    exact ih
  | @within _ _ _ _ k _ _ ih =>
    rw [bodyLines_intercept, List.drop_succ_cons, List.drop_append, Nat.add_comm k, ← Nat.add_assoc]
    exact ih.trans (List.prefix_append _ _)
  | @behindIntercept _ builder _ _ _ i _ ih =>
    have hline : i + (2 + builder.weight) = builder.weight + (i + 1) + 1 := by omega
    rw [bodyLines_intercept, hline, List.drop_succ_cons, ← o.length_bodyLines,
      List.drop_length_add_append, List.drop_succ_cons]
    exact ih
  | behindGive _ ih =>
    rw [bodyLines_give, List.drop_succ_cons]
    exact ih

lemma not_blank_of_mem_bodyLines (hline : line ∈ o.bodyLines level b) :
    isBlankText line = false := by
  have hopening : ∀ level (b : Body), isBlankText (o.indented level b.opening) = false :=
    fun level b => (o.isBlankText_indented level _).trans b.isBlankText_opening
  induction b generalizing level with
  | done => cases hline
  | bind name call rest ih =>
    rw [bodyLines_bind] at hline
    rcases List.mem_cons.1 hline with rfl | hline
    · exact hopening _ _
    · exact ih hline
  | intercept interceptor builder rest ihbuilder ih =>
    rw [bodyLines_intercept, List.mem_cons, List.mem_append, List.mem_cons] at hline
    rcases hline with rfl | hline | rfl | hline
    · exact hopening _ _
    · exact ihbuilder hline
    · exact hopening _ _
    · exact ih hline
  | give call rest ih =>
    rw [bodyLines_give] at hline
    rcases List.mem_cons.1 hline with rfl | hline
    · exact hopening _ _
    · exact ih hline

/-! ### Routines -/

lemma isBlankText_signature (s : Signature) : isBlankText s.text = false := by
  have hfunc : isBlankText "func " = false := by decide
  simp [Signature.text, hfunc]

/-- No line of a routine is blank, so none is left out. -/
lemma routineLines_eq : o.routineLines f =
    o.indented 1 (f.signature.text ++ " \x7b") ::
      (o.bodyLines 2 f.body ++ [o.indented 1 Body.done.opening]) := by
  have hlines : (o.indentation 1 ++ f.signature.text ++ " \x7b") :: o.bodyLines 2 f.body ++
      [o.indentation 1 ++ "\x7d"] = o.indented 1 (f.signature.text ++ " \x7b") ::
        (o.bodyLines 2 f.body ++ [o.indented 1 Body.done.opening]) := by
    simp only [indented, Body.opening, String.append_assoc, List.cons_append]
  rw [routineLines, hlines, List.filter_eq_self]
  intro line hline
  rw [List.mem_cons, List.mem_append, List.mem_singleton] at hline
  rcases hline with rfl | hline | rfl
  · simp [isBlankText_indented, isBlankText_signature]
  · simp [not_blank_of_mem_bodyLines hline]
  · simp [isBlankText_indented, Body.isBlankText_opening]

lemma not_blank_of_mem_routineLines (hline : line ∈ o.routineLines f) :
    isBlankText line = false := by
  simpa using (List.mem_filter.1 hline).2

/-- The lines of a routine follow the statements of its body. -/
structure FollowsStatements (o : LayoutOptions) (f : Routine) : Prop where
  /-- No line is left out between the signature and the closing brace. -/
  routineLines_eq : o.routineLines f = o.indented 1 (f.signature.text ++ " \x7b") ::
    (o.bodyLines 2 f.body ++ [o.indented 1 "\x7d"])
  length_eq : (o.routineLines f).length = 2 + f.body.weight
  /-- Every line between them opens a statement or closes a builder. -/
  covered : ∀ i < f.body.weight, (∃ k s, f.body.Stands k i s) ∨ f.body.Closes i
  /-- A statement under `k` interceptors has its line at level `k + 2`. -/
  indented : ∀ k i s, f.body.Stands k i s →
    (o.routineLines f)[i + 1]? = some (o.indented (k + 2) s.opening) ∧
      ∃ c content, (o.indented (k + 2) s.opening).toList =
        List.replicate (o.indent * (k + 2)) ' ' ++ c :: content ∧ c ≠ ' '
  /-- A line that opens a builder is matched by a brace behind the lines of the builder. -/
  matched : ∀ k i interceptor builder rest,
    f.body.Stands k i (.intercept interceptor builder rest) →
      ((o.routineLines f).drop (i + 1)).take (2 + builder.weight) =
        o.indented (k + 2) ("return " ++ interceptor ++ " \x7b") ::
          (o.bodyLines (k + 3) builder ++ [o.indented (k + 2) "\x7d"])

lemma drop_routineLines (h : f.body.Stands k i s) :
    o.bodyLines (k + 2) s <+: (o.routineLines f).drop (i + 1) := by
  rw [routineLines_eq, List.drop_succ_cons, List.drop_append, Nat.add_comm k]
  exact (isPrefix_drop_bodyLines h).trans (List.prefix_append _ _)

lemma followsStatements (o : LayoutOptions) (f : Routine) : o.FollowsStatements f := by
  constructor
  case routineLines_eq => exact routineLines_eq
  case length_eq =>
    rw [routineLines_eq, List.length_cons, List.length_append, List.length_singleton,
      length_bodyLines]
    omega
  case covered => exact fun i hi => Body.stands_or_closes hi
  case indented =>
    intro k i s hs
    obtain ⟨c, content, hcons, hc, _⟩ := s.exists_opening_eq_cons
    obtain ⟨behind, hlines⟩ := o.exists_bodyLines_eq_cons (k + 2) hs.ne_done
    obtain ⟨behind', hdrop⟩ := drop_routineLines (o := o) hs
    rw [hlines] at hdrop
    refine ⟨?_, c, content, by rw [toList_indented, hcons], hc⟩
    rw [← List.head?_drop, ← hdrop]
    rfl
  case matched =>
    intro k i interceptor builder rest hs
    obtain ⟨behind, hdrop⟩ := drop_routineLines (o := o) hs
    have hlength : 2 + builder.weight = (o.bodyLines (k + 3) builder).length + 1 + 1 := by
      rw [length_bodyLines]
      omega
    rw [← hdrop, bodyLines_intercept, List.cons_append, hlength, List.take_succ_cons,
      List.append_assoc, List.take_length_add_append]
    rfl

end LayoutOptions

end Wiring
