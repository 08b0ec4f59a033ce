/-!
# Depth-first walks

A walk lists what can be reached from some pending elements: each element once, at its first
turn, followed by what can be reached from it. Only the elements of a given finite list are
listed; each of them is fresh until its turn comes.

Elements are compared by `==`, which may be coarser than equality. The listed representative of
a class is the one that was pending.
-/

namespace Wiring

namespace Walk

variable {α : Type _} [BEq α]

/-! ### Fresh elements -/

/-- The elements that are still fresh once `x` has had its turn. -/
def without (x : α) (fresh : List α) : List α :=
  fresh.filter fun y => !(x == y)

/-- The pending elements from the first fresh one on. -/
def pastStale (fresh pending : List α) : List α :=
  pending.dropWhile fun x => !fresh.contains x

theorem length_without_lt {x : α} {fresh : List α} (h : fresh.contains x = true) :
    (without x fresh).length < fresh.length := by
  obtain ⟨y, hy, hxy⟩ := List.contains_iff_exists_mem_beq.1 h
  exact List.length_filter_lt_length_iff_exists.2 ⟨y, hy, by simp [hxy]⟩

theorem contains_of_pastStale_eq_cons {fresh pending : List α} {x : α} {rest : List α}
    (h : pastStale fresh pending = x :: rest) : fresh.contains x = true := by
  induction pending with
  | nil => simp [pastStale] at h
  | cons y pending ih =>
    cases hy : fresh.contains y with
    | true =>
      simp only [pastStale, List.dropWhile_cons, hy, Bool.not_true, Bool.false_eq_true,
        ↓reduceIte, List.cons.injEq] at h
      exact h.1 ▸ hy
    | false =>
      simp only [pastStale, List.dropWhile_cons, hy, Bool.not_false, ↓reduceIte] at h
      exact ih h

end Walk

/-! ### The walk -/

open Walk

/-- What can be reached from the pending elements, depth first, each fresh element once. -/
def walk {α : Type _} [BEq α] (next : α → List α) (fresh pending : List α) : List α :=
  match h : pastStale fresh pending with
  | [] => []
  | x :: rest =>
    have := length_without_lt (contains_of_pastStale_eq_cons h)
    x :: walk next (without x fresh) (next x ++ rest)
termination_by fresh.length

namespace Walk

variable {α : Type _} [BEq α] {next : α → List α} {fresh rest : List α} {x : α}

@[simp] theorem walk_nil : walk next fresh [] = [] := by
  rw [walk]
  rfl

theorem walk_cons_of_stale (h : fresh.contains x = false) :
    walk next fresh (x :: rest) = walk next fresh rest := by
  have : pastStale fresh (x :: rest) = pastStale fresh rest := by
    simp [pastStale, h]
  rw [walk, walk]
  split <;> split <;> simp_all

theorem walk_cons_of_fresh (h : fresh.contains x = true) :
    walk next fresh (x :: rest) = x :: walk next (without x fresh) (next x ++ rest) := by
  have : pastStale fresh (x :: rest) = x :: rest := by
    simp only [pastStale, List.dropWhile_cons, h, Bool.not_true, Bool.false_eq_true, ↓reduceIte]
  rw [walk]
  split <;> simp_all

/-! ### Each fresh element once -/

theorem contains_of_contains_without {y : α} (h : (without x fresh).contains y = true) :
    fresh.contains y = true := by
  obtain ⟨z, hz, hyz⟩ := List.contains_iff_exists_mem_beq.1 h
  exact List.contains_iff_exists_mem_beq.2 ⟨z, (List.mem_filter.1 hz).1, hyz⟩

/-- What is listed was fresh. -/
theorem contains_of_mem_walk {pending : List α} (h : x ∈ walk next fresh pending) :
    fresh.contains x = true := by
  fun_induction walk next fresh pending with
  | case1 => cases h
  | case2 fresh pending y rest hy _ ih =>
    rcases List.mem_cons.1 h with rfl | h
    · exact contains_of_pastStale_eq_cons hy
    · exact contains_of_contains_without (ih h)

/-- No element is listed twice. -/
theorem pairwise_walk [EquivBEq α] (next : α → List α) (fresh pending : List α) :
    (walk next fresh pending).Pairwise fun x y => (x == y) = false := by
  fun_induction walk next fresh pending with
  | case1 => exact .nil
  | case2 fresh pending x rest _ _ ih =>
    refine List.pairwise_cons.2 ⟨fun y hy => ?_, ih⟩
    obtain ⟨z, hz, hyz⟩ := List.contains_iff_exists_mem_beq.1 (contains_of_mem_walk hy)
    have hxz : (x == z) = false := by simpa using (List.mem_filter.1 hz).2
    cases hxy : x == y with
    | false => rfl
    | true => exact absurd (BEq.trans hxy hyz) (by simp [hxz])

end Walk

end Wiring
