import Wiring.Json.Shape
import Wiring.Json.Writer
import Wiring.Proofs.Json.Text

/-!
# Values that were written

For every shape, what was written of a value is read as that value, and nothing behind it is
touched (`Reads`). A list is read back if its members are, and a record if its fields are; a field
that was left out stays as it is in the blank record (`Fills`).
-/

namespace Wiring.Json.Reader

variable {α β σ : Type} {text behind rest : List Char}

/-! ### Steps of a reader -/

lemma bind_eq {x : Reader α} {f : α → Reader β} {a : α} (h : x text = .ok (a, behind)) :
    (x >>= f) text = f a behind := by
  simp [bind, StateT.bind, h, Except.bind]

lemma pure_eq (a : α) : (pure a : Reader α) text = .ok (a, text) :=
  rfl

lemma look_cons {c : Char} (hc : isGap c = false) : look (c :: rest) = .ok (c, c :: rest) := by
  simp [look, hc]

lemma step_cons (c : Char) : step (c :: rest) = .ok ((), rest) :=
  rfl

lemma colon_cons : colon (':' :: rest) = .ok ((), rest) :=
  rfl

/-! ### Single values -/

/-- What is written as `text` is read as `value`, whatever follows. Its first character is one that
opens a value other than null. -/
structure Reads (reader : Reader α) (text : List Char) (value : α) : Prop where
  opens : ∃ c ∈ text.head?, c ∈ ['"', '[', '\x7b']
  read : ∀ rest, reader (text ++ rest) = .ok (value, rest)

variable {reader : Reader α} {value : α}

namespace Reads

lemma exists_cons (h : Reads reader text value) : ∃ c chars, text = c :: chars ∧
    isGap c = false ∧ c ≠ ']' ∧ c ≠ 'n' := by
  obtain ⟨c, hc, hmem⟩ := h.opens
  obtain ⟨chars, rfl⟩ := List.head?_eq_some_iff.1 hc
  refine ⟨c, chars, rfl, ?_⟩
  simp only [List.mem_cons, List.not_mem_nil, or_false] at hmem
  rcases hmem with rfl | rfl | rfl <;> decide

/-- A value is read the same if something is made of it. -/
lemma map (h : Reads reader text value) (f : α → β) :
    Reads (do return f (← reader)) text (f value) where
  opens := h.opens
  read rest := by rw [bind_eq (h.read rest), pure_eq]

lemma optional (h : Reads reader text value) : Reads (optional reader) text (some value) where
  opens := h.opens
  read rest := by
    obtain ⟨c, chars, rfl, hgap, _, hnull⟩ := h.exists_cons
    rw [Reader.optional, List.cons_append, bind_eq (look_cons hgap), if_neg hnull,
      ← List.cons_append, bind_eq (h.read rest), pure_eq]

end Reads

lemma reads_string (s : String) : Reads string (Text.encode s) s where
  opens := ⟨'"', rfl, by decide⟩
  read rest := by
    have hscan := Text.scan_flatMap_encodeChar s.toList rest
    simp only [Text.encode, List.cons_append, List.append_assoc, List.nil_append]
    rw [string, bind_eq (look_cons (by decide)), if_pos rfl, bind_eq (step_cons _), stringRest]
    simp [hscan]

/-- A word is read as what it stands for. -/
lemma reads_choice {choices : List (String × α)} {word : String}
    (hword : choices.lookup word = some value) :
    Reads (choice choices) (Text.encode word) value where
  opens := (reads_string word).opens
  read rest := by
    have hquote : Text.encode word ++ rest = '"' :: (Text.encode word ++ rest).tail := rfl
    rw [choice, hquote, bind_eq (look_cons (by decide)), if_pos rfl, ← hquote, choiceName,
      bind_eq ((reads_string word).read rest), hword]
    rfl

/-! ### Parts -/

/-- The comma in front of a part, unless the part is the first. -/
def separator (start : Bool) : List Char :=
  if start then [] else [',']

/-- Parts with a comma in front of each but the first. -/
def parted : Bool → List (List Char) → List Char
  | _, [] => []
  | start, part :: parts => separator start ++ (part ++ parted false parts)

lemma commaSeparated_eq_parted (parts : List (List Char)) :
    Writer.commaSeparated parts = parted true parts := by
  induction parts with
  | nil => rfl
  | cons part parts ih =>
    cases parts with
    | nil => simp [Writer.commaSeparated, parted, separator]
    | cons second parts =>
      rw [Writer.commaSeparated, ih]
      · simp [parted, separator]
      · exact List.cons_ne_nil _ _

lemma length_le_length_parted {parts : List (List Char)} (hparts : ∀ part ∈ parts, part ≠ [])
    (start : Bool) : parts.length ≤ (parted start parts).length := by
  induction parts generalizing start with
  | nil => exact Nat.le_refl _
  | cons part parts ih =>
    obtain ⟨hpart, hparts⟩ := List.forall_mem_cons.1 hparts
    have hlength := List.length_pos_iff.2 hpart
    have hothers := ih hparts false
    simp only [parted, List.length_cons, List.length_append]
    omega

/-! ### Lists -/

lemma hasMember_closing (start : Bool) :
    hasMember start (']' :: rest) = .ok (false, ']' :: rest) := by
  rw [hasMember, bind_eq (look_cons (by decide)), if_pos rfl, pure_eq]

lemma Reads.hasMember (h : Reads reader text value) (start : Bool) (rest : List Char) :
    hasMember start (separator start ++ (text ++ rest)) = .ok (true, text ++ rest) := by
  obtain ⟨c, chars, rfl, hgap, hclosing, _⟩ := h.exists_cons
  cases start with
  | true =>
    simp only [separator, if_true, List.nil_append, List.cons_append]
    rw [Reader.hasMember, bind_eq (look_cons hgap), if_neg hclosing, if_pos rfl, pure_eq]
  | false =>
    simp only [separator, Bool.false_eq_true, if_false, List.cons_append, List.nil_append]
    rw [Reader.hasMember, bind_eq (look_cons (by decide)), if_neg (by decide), if_neg (by decide),
      if_pos rfl, bind_eq (step_cons _), bind_eq (look_cons hgap), if_neg hclosing, pure_eq]

lemma members_parted {write : α → List Char} {values : List α}
    (hvalues : ∀ a ∈ values, Reads reader (write a) a) (rest : List Char) {fuel : Nat}
    (hfuel : values.length < fuel) (start : Bool) :
    members reader fuel start (parted start (values.map write) ++ ']' :: rest) =
      .ok (values, rest) := by
  induction values generalizing fuel start with
  | nil =>
    obtain ⟨fuel, rfl⟩ := Nat.exists_eq_add_one_of_ne_zero (Nat.ne_zero_of_lt hfuel)
    rw [members, List.map_nil, parted, List.nil_append, bind_eq (hasMember_closing start)]
    rfl
  | cons a values ih =>
    obtain ⟨fuel, rfl⟩ := Nat.exists_eq_add_one_of_ne_zero (Nat.ne_zero_of_lt hfuel)
    obtain ⟨ha, hvalues⟩ := List.forall_mem_cons.1 hvalues
    have hothers := ih hvalues (Nat.lt_of_succ_lt_succ hfuel) false
    rw [members, List.map_cons, parted, List.append_assoc, List.append_assoc,
      bind_eq (ha.hasMember start _), if_pos rfl, bind_eq (ha.read _), bind_eq hothers, pure_eq]

/-- A list is read back if its members are. -/
lemma Reads.list {write : α → List Char} {values : List α}
    (hvalues : ∀ a ∈ values, Reads reader (write a) a) :
    Reads (list reader) (Writer.list (values.map write)) values where
  opens := ⟨'[', rfl, by decide⟩
  read rest := by
    have hwritten : ∀ part ∈ values.map write, part ≠ [] := by
      intro part hpart
      obtain ⟨a, ha, rfl⟩ := List.mem_map.1 hpart
      obtain ⟨c, chars, hcons, _⟩ := (hvalues a ha).exists_cons
      exact hcons ▸ List.cons_ne_nil c chars
    have hlength := length_le_length_parted hwritten true
    rw [List.length_map] at hlength
    rw [Writer.list, commaSeparated_eq_parted, List.cons_append, List.append_assoc, Reader.list,
      bind_eq (look_cons (by decide)), if_pos rfl, bind_eq (step_cons _)]
    refine members_parted hvalues rest ?_ true
    simp only [List.length_append]
    omega

/-! ### Records -/

lemma hasField_closing (start : Bool) :
    hasField start ('\x7d' :: rest) = .ok (false, '\x7d' :: rest) := by
  rw [hasField, bind_eq (look_cons (by decide)), if_pos rfl, pure_eq]

lemma hasField_quote (start : Bool) :
    hasField start (separator start ++ '"' :: rest) = .ok (true, '"' :: rest) := by
  cases start with
  | true =>
    simp only [separator, if_true, List.nil_append]
    rw [hasField, bind_eq (look_cons (by decide)), if_neg (by decide), if_pos rfl, if_pos rfl,
      pure_eq]
  | false =>
    simp only [separator, Bool.false_eq_true, if_false, List.cons_append, List.nil_append]
    rw [hasField, bind_eq (look_cons (by decide)), if_neg (by decide), if_neg (by decide),
      if_pos rfl, bind_eq (step_cons _), bind_eq (look_cons (by decide)), if_pos rfl, pure_eq]

/-- The fields that were written take a record that lacks all of them to one that has them. -/
inductive Fills (fields : List (Field σ)) : List String → σ → List (String × List Char) → σ → Prop
  | done {seen : List String} {s : σ} :
    (∀ field ∈ fields, field.required = true → field.name ∈ seen) → Fills fields seen s [] s
  | field {seen : List String} {s t u : σ} {name : String} {text : List Char} {field : Field σ}
    {written : List (String × List Char)} :
    fields.find? (·.name == name) = some field → name ∉ seen → Reads (field.read s) text t →
      Fills fields (name :: seen) t written u → Fills fields seen s ((name, text) :: written) u

/-- A field as it is written. -/
def fieldText (field : String × List Char) : List Char :=
  Text.encode field.1 ++ ':' :: field.2

lemma namedFields_parted {fields : List (Field σ)} {seen : List String} {s t : σ}
    {written : List (String × List Char)} (h : Fills fields seen s written t) (rest : List Char)
    {fuel : Nat} (hfuel : written.length < fuel) (start : Bool) :
    namedFields fields fuel start seen s (parted start (written.map fieldText) ++ '\x7d' :: rest) =
      .ok (t, rest) := by
  induction h generalizing fuel start with
  | @done seen s hrequired =>
    obtain ⟨fuel, rfl⟩ := Nat.exists_eq_add_one_of_ne_zero (Nat.ne_zero_of_lt hfuel)
    have hnone :
        fields.find? (fun field => field.required && !seen.contains field.name) = none := by
      simpa [List.find?_eq_none] using hrequired
    rw [namedFields, List.map_nil, parted, List.nil_append, bind_eq (hasField_closing start),
      if_neg (by decide), hnone]
    rfl
  | @field seen s t u name text field written hfind hseen hread _ ih =>
    obtain ⟨fuel, rfl⟩ := Nat.exists_eq_add_one_of_ne_zero (Nat.ne_zero_of_lt hfuel)
    have hothers := ih (Nat.lt_of_succ_lt_succ hfuel) false
    have hname := (reads_string name).read
    have hnew : seen.contains name = false := by simpa using hseen
    have hfirst : ∀ rest, hasField start (separator start ++ (Text.encode name ++ rest)) =
        .ok (true, Text.encode name ++ rest) := fun _ => hasField_quote start
    simp only [namedFields, List.map_cons, parted, fieldText, List.append_assoc, List.cons_append]
    rw [bind_eq (hfirst _), if_pos rfl, bind_eq (hname _), hfind]
    simp only [hnew]
    rw [if_neg (by decide), bind_eq colon_cons, bind_eq (hread.read _)]
    exact hothers

/-- A record is read back if its fields are. -/
lemma Fills.reads {fields : List (Field σ)} {blank t : σ} {written : List (String × List Char)}
    (h : Fills fields [] blank written t) :
    Reads (record blank fields) (Writer.record written) t where
  opens := ⟨'\x7b', rfl, by decide⟩
  read rest := by
    have hwritten : ∀ part ∈ written.map fieldText, part ≠ [] := by
      intro part hpart
      obtain ⟨field, _, rfl⟩ := List.mem_map.1 hpart
      exact List.cons_ne_nil _ _
    have hlength := length_le_length_parted hwritten true
    rw [List.length_map] at hlength
    have htext : Writer.record written ++ rest =
        '\x7b' :: (parted true (written.map fieldText) ++ '\x7d' :: rest) := by
      rw [← commaSeparated_eq_parted, Writer.record, List.cons_append, List.append_assoc]
      rfl
    rw [htext, record, bind_eq (look_cons (by decide)), if_neg (by decide), if_pos rfl,
      bind_eq (step_cons _)]
    refine namedFields_parted h rest ?_ true
    simp only [List.length_append]
    omega

end Wiring.Json.Reader
