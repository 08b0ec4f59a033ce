import Mathlib.Data.List.Forall2
import Mathlib.Tactic.Common

/-!
# Reading back what is written in a row

A part of a text ends at the first thing that cannot belong to it (`append_inj_of_ends`). Where
several parts are written in a row with a mark between one and the next, and each of them tells
where it ends, the parts are read back one by one (`forall₂_of_intercalate`). Both hold of
characters in a line and of lines in a text.
-/

namespace Wiring.Delimited

variable {α β : Type*}

/-- The first member that is none of the part ends it. -/
lemma append_inj_of_ends {p : β → Prop} {l l' rest rest' : List β} (hl : ∀ x ∈ l, p x)
    (hl' : ∀ x ∈ l', p x) (hrest : ∀ x ∈ rest.head?, ¬ p x) (hrest' : ∀ x ∈ rest'.head?, ¬ p x)
    (h : l ++ rest = l' ++ rest') : l = l' ∧ rest = rest' := by
  induction l generalizing l' with
  | nil =>
    cases l' with
    | nil => exact ⟨rfl, h⟩
    | cons y l' =>
      obtain rfl : rest = y :: (l' ++ rest') := h
      exact absurd (hl' y List.mem_cons_self) (hrest y rfl)
  | cons x l ih =>
    cases l' with
    | nil =>
      obtain rfl : x :: (l ++ rest) = rest' := h
      exact absurd (hl x List.mem_cons_self) (hrest' x rfl)
    | cons y l' =>
      obtain ⟨rfl, hbehind⟩ := List.cons.inj h
      obtain ⟨rfl, hrest⟩ := ih (fun z hz => hl z (List.mem_cons_of_mem _ hz))
        (fun z hz => hl' z (List.mem_cons_of_mem _ hz)) hbehind
      exact ⟨rfl, hrest⟩

/-! ### Parts in a row -/

lemma map_eq_map_iff_forall₂ {text : α → β} {xs ys : List α} :
    xs.map text = ys.map text ↔ List.Forall₂ (fun x y => text x = text y) xs ys := by
  rw [← List.forall₂_eq_eq_eq, List.forall₂_map_left_iff, List.forall₂_map_right_iff]

/-- What stands behind the first of several parts: the mark and the other parts, or the end. -/
def behindFirst (mark : List β) (parts : List (List β)) (tail : List β) : List β :=
  if parts = [] then tail else mark ++ (mark.intercalate parts ++ tail)

lemma intercalate_cons_append (mark part : List β) (parts : List (List β)) (tail : List β) :
    mark.intercalate (part :: parts) ++ tail = part ++ behindFirst mark parts tail := by
  cases parts with
  | nil => simp [behindFirst]
  | cons second parts => simp [behindFirst, List.intercalate_cons_cons]

variable {text : α → List β} {same : α → α → Prop} {stop : List β → Prop} {mark tail tail' : List β}
  {xs ys : List α}

lemma stop_behindFirst (hmark : ∀ y ∈ ys, ∀ rest, stop (mark ++ (text y ++ rest)))
    (htail : stop tail) : stop (behindFirst mark (ys.map text) tail) := by
  cases ys with
  | nil => simpa [behindFirst] using htail
  | cons y ys =>
    rw [behindFirst, if_neg (by simp), List.map_cons, intercalate_cons_append]
    exact hmark y List.mem_cons_self _

/-- Parts in a row are read back one by one. What may follow a part is a stop: the mark, or what
follows the last one, which does not start with the mark. No part starts like a stop. -/
theorem forall₂_of_intercalate (hread : ∀ x ∈ xs, ∀ y ∈ ys, ∀ rest rest', stop rest → stop rest' →
      text x ++ rest = text y ++ rest' → same x y ∧ rest = rest')
    (hxs : ∀ x ∈ xs, ∀ rest, stop (mark ++ (text x ++ rest)) ∧ ¬ stop (text x ++ rest))
    (hys : ∀ y ∈ ys, ∀ rest, stop (mark ++ (text y ++ rest)) ∧ ¬ stop (text y ++ rest))
    (htail : stop tail ∧ ∀ rest, tail ≠ mark ++ rest)
    (htail' : stop tail' ∧ ∀ rest, tail' ≠ mark ++ rest)
    (h : mark.intercalate (xs.map text) ++ tail = mark.intercalate (ys.map text) ++ tail') :
    List.Forall₂ same xs ys ∧ tail = tail' := by
  induction xs generalizing ys with
  | nil =>
    cases ys with
    | nil => exact ⟨.nil, by simpa using h⟩
    | cons y ys =>
      rw [List.map_cons, intercalate_cons_append] at h
      have hstart := (hys y List.mem_cons_self (behindFirst mark (ys.map text) tail')).2
      rw [← h] at hstart
      exact absurd htail.1 hstart
  | cons x xs ih =>
    cases ys with
    | nil =>
      rw [List.map_cons, intercalate_cons_append] at h
      have hstart := (hxs x List.mem_cons_self (behindFirst mark (xs.map text) tail)).2
      rw [h] at hstart
      exact absurd htail'.1 hstart
    | cons y ys =>
      obtain ⟨hx, hxs⟩ := List.forall_mem_cons.1 hxs
      obtain ⟨hy, hys⟩ := List.forall_mem_cons.1 hys
      rw [List.map_cons, List.map_cons, intercalate_cons_append, intercalate_cons_append] at h
      obtain ⟨hxy, hbehind⟩ := hread x List.mem_cons_self y List.mem_cons_self _ _
        (stop_behindFirst (fun x hx rest => (hxs x hx rest).1) htail.1)
        (stop_behindFirst (fun y hy rest => (hys y hy rest).1) htail'.1) h
      have hread : ∀ x ∈ xs, ∀ y ∈ ys, ∀ rest rest', stop rest → stop rest' →
          text x ++ rest = text y ++ rest' → same x y ∧ rest = rest' := fun x hx y hy =>
        hread x (List.mem_cons_of_mem _ hx) y (List.mem_cons_of_mem _ hy)
      -- both rows go on with the mark, or both are at their end
      cases xs with
      | nil =>
        cases ys with
        | nil => exact ⟨.cons hxy .nil, by simpa [behindFirst] using hbehind⟩
        | cons y' ys => exact absurd (by simpa [behindFirst] using hbehind) (htail.2 _)
      | cons x' xs =>
        cases ys with
        | nil => exact absurd (by simpa [behindFirst] using hbehind.symm) (htail'.2 _)
        | cons y' ys =>
          rw [behindFirst, behindFirst, if_neg (by simp), if_neg (by simp)] at hbehind
          obtain ⟨hrow, htails⟩ := ih hread hxs hys (List.append_cancel_left hbehind)
          exact ⟨.cons hxy hrow, htails⟩

end Wiring.Delimited
