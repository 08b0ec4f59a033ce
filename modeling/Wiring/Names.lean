/-!
# Sets of names in ascending order

Names are ordered by their code points. A list of names is sorted by inserting its members one
by one; a name that is already present is not inserted again, so that the result is strictly
ascending and has the same members (`pairwise_sorted`, `mem_sorted`).
-/

namespace Wiring.Names

/-- Insert a name into an ascending list, unless it is there already. -/
def insert (name : String) : List String → List String
  | [] => [name]
  | other :: rest =>
    if name < other then name :: other :: rest
    else if name = other then other :: rest
    else other :: insert name rest

/-- The distinct names of a list in ascending order. -/
def sorted (names : List String) : List String :=
  names.foldr insert []

/-! ### Membership and order -/

@[simp] theorem mem_insert {name n : String} {names : List String} :
    n ∈ insert name names ↔ n = name ∨ n ∈ names := by
  induction names with
  | nil => simp [insert]
  | cons other rest ih =>
    simp only [insert]
    split
    · simp
    · split
      · next h => subst h; simp
      · simp [ih]; grind

@[simp] theorem mem_sorted {n : String} {names : List String} : n ∈ sorted names ↔ n ∈ names := by
  induction names with
  | nil => simp [sorted]
  | cons name rest ih => simpa [sorted] using or_congr Iff.rfl ih

theorem pairwise_insert {name : String} {names : List String} (h : names.Pairwise (· < ·)) :
    (insert name names).Pairwise (· < ·) := by
  induction names with
  | nil => simp [insert]
  | cons other rest ih =>
    obtain ⟨hother, hrest⟩ := List.pairwise_cons.1 h
    simp only [insert]
    split
    · next hlt =>
      exact List.pairwise_cons.2 ⟨fun n hn => by
        rcases List.mem_cons.1 hn with rfl | hn
        · exact hlt
        · exact String.lt_trans hlt (hother n hn), h⟩
    · split
      · exact h
      · next hlt hne =>
        refine List.pairwise_cons.2 ⟨fun n hn => ?_, ih hrest⟩
        rcases mem_insert.1 hn with rfl | hn
        · exact Decidable.byContradiction fun hge =>
            hne (String.le_antisymm (String.not_lt.1 hge) (String.not_lt.1 hlt))
        · exact hother n hn

theorem pairwise_sorted (names : List String) : (sorted names).Pairwise (· < ·) := by
  induction names with
  | nil => exact .nil
  | cons name rest ih => exact pairwise_insert ih

end Wiring.Names
