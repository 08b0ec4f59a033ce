import Mathlib.Logic.Relation
import Wiring.Proofs.Sameness
import Wiring.Walk

/-!
# What a walk lists

A walk lists exactly the elements that a chain of fresh elements leads to from a pending one
(`contains_walk_iff`). Since elements are compared by `==`, so is membership here, and the
elements that an element leads to may only depend on its class.

If everything that turns up on the way is fresh at the start, being reached is the reflexive
transitive closure of one step (`reached_iff_of_closed`).
-/

namespace Wiring.Walk

open Sameness

variable {α : Type*} [BEq α] {next : α → List α} {fresh pending : List α} {x y : α}

/-! ### Fresh elements -/

lemma contains_without [EquivBEq α] :
    (without x fresh).contains y = true ↔ fresh.contains y = true ∧ (x == y) = false := by
  constructor
  · intro h
    obtain ⟨z, hz, hyz⟩ := List.contains_iff_exists_mem_beq.1 h
    have hxz : (x == z) = false := by simpa using (List.mem_filter.1 hz).2
    refine ⟨contains_of_contains_without h, ?_⟩
    cases hxy : x == y with
    | false => rfl
    | true => simp [BEq.trans hxy hyz] at hxz
  · rintro ⟨hfresh, hxy⟩
    obtain ⟨z, hz, hyz⟩ := List.contains_iff_exists_mem_beq.1 hfresh
    refine List.contains_iff_exists_mem_beq.2 ⟨z, List.mem_filter.2 ⟨hz, ?_⟩, hyz⟩
    cases hxz : x == z with
    | false => rfl
    | true => simp [BEq.trans hxz (BEq.symm hyz)] at hxy

/-- Skipping stale elements splits the pending ones at the first fresh one. -/
lemma exists_eq_append_of_pastStale {rest : List α} (h : pastStale fresh pending = rest) :
    ∃ stale, pending = stale ++ rest ∧ ∀ z ∈ stale, fresh.contains z = false := by
  refine ⟨pending.takeWhile fun z => !fresh.contains z, ?_, ?_⟩
  · rw [← h, pastStale, List.takeWhile_append_dropWhile]
  · intro z hz
    simpa using List.all_eq_true.1 List.all_takeWhile z hz

/-! ### Reached elements -/

/-- A chain of fresh elements leads to the element from a pending one. -/
inductive Reached (next : α → List α) (fresh pending : List α) : α → Prop
  | pending {x : α} (hfresh : fresh.contains x = true) (hx : pending.contains x = true) :
      Reached next fresh pending x
  | next {x y : α} (hx : Reached next fresh pending x) (hfresh : fresh.contains y = true)
      (hy : (next x).contains y = true) : Reached next fresh pending y

lemma not_reached_of_stale [EquivBEq α] (h : ∀ z ∈ pending, fresh.contains z = false) :
    ¬ Reached next fresh pending x := by
  intro hx
  induction hx with
  | pending hfresh hx =>
    obtain ⟨z, hz, hxz⟩ := List.contains_iff_exists_mem_beq.1 hx
    have := (contains_congr hxz).1 hfresh
    simp [h z hz] at this
  | next _ _ _ ih => exact ih

/-! ### One turn of the walk -/

section Turn

variable [EquivBEq α] {stale rest : List α}

/-- What is reached after the turn of `x` was within reach before it. -/
lemma Reached.of_turn (hfresh : fresh.contains x = true)
    (h : Reached next (without x fresh) (next x ++ rest) y) :
    Reached next fresh (stale ++ x :: rest) y := by
  have hx : Reached next fresh (stale ++ x :: rest) x := .pending hfresh (by simp)
  induction h with
  | @pending y hy hpending =>
    rw [List.contains_append, Bool.or_eq_true] at hpending
    rcases hpending with hnext | hrest
    · exact .next hx (contains_of_contains_without hy) hnext
    · exact .pending (contains_of_contains_without hy) (by simp [hrest])
  | next _ hz hstep ih => exact .next ih (contains_of_contains_without hz) hstep

/-- The turn of `x` takes nothing but `x` out of reach. -/
lemma Reached.turn (hnext : ∀ x y, (x == y) = true → next x = next y)
    (hstale : ∀ z ∈ stale, fresh.contains z = false)
    (h : Reached next fresh (stale ++ x :: rest) y) :
    (y == x) = true ∨ Reached next (without x fresh) (next x ++ rest) y := by
  induction h with
  | @pending y hfresh hpending =>
    by_cases hyx : (y == x) = true
    · exact .inl hyx
    · have hfresh' : (without x fresh).contains y = true :=
        contains_without.2 ⟨hfresh, by rw [BEq.comm]; simpa using hyx⟩
      obtain ⟨z, hz, hyz⟩ := List.contains_iff_exists_mem_beq.1 hpending
      rcases List.mem_append.1 hz with hz | hz
      · have := (contains_congr hyz).1 hfresh
        simp [hstale z hz] at this
      · rcases List.mem_cons.1 hz with rfl | hz
        · exact absurd hyz hyx
        · have hrest : rest.contains y = true := List.contains_iff_exists_mem_beq.2 ⟨z, hz, hyz⟩
          exact .inr (.pending hfresh' (by simp [hrest]))
  | @next y z _ hfresh hstep ih =>
    by_cases hzx : (z == x) = true
    · exact .inl hzx
    · have hfresh' : (without x fresh).contains z = true :=
        contains_without.2 ⟨hfresh, by rw [BEq.comm]; simpa using hzx⟩
      rcases ih with hyx | hy
      · rw [hnext y x hyx] at hstep
        exact .inr (.pending hfresh' (by simp [hstep]))
      · exact .inr (.next hy hfresh' hstep)

end Turn

/-! ### The walk -/

lemma pastStale_congr {fresh' : List α}
    (h : ∀ x ∈ pending, fresh.contains x = fresh'.contains x) :
    pastStale fresh pending = pastStale fresh' pending := by
  induction pending with
  | nil => rfl
  | cons x pending ih =>
    obtain ⟨hx, h⟩ := List.forall_mem_cons.1 h
    have ih := ih h
    simp only [pastStale, List.dropWhile_cons, hx] at ih ⊢
    rw [ih]

/-- A walk never leaves a set of elements that nothing in it leads out of. What is fresh and what
elements lead to matters only within it. -/
theorem walk_congr_of_closed [EquivBEq α] {next' : α → List α} {fresh' : List α} {P : α → Prop}
    (hpending : ∀ x ∈ pending, P x) (hclosed : ∀ x, P x → ∀ y ∈ next x, P y)
    (hnext : ∀ x, P x → next x = next' x)
    (hfresh : ∀ x, P x → fresh.contains x = fresh'.contains x) :
    walk next fresh pending = walk next' fresh' pending := by
  fun_induction walk next fresh pending generalizing fresh' with
  | case1 fresh pending hstale =>
    rw [pastStale_congr fun x hx => hfresh x (hpending x hx)] at hstale
    rw [walk]
    split <;> simp_all
  | case2 fresh pending x rest hx _ ih =>
    obtain ⟨stale, rfl, _⟩ := exists_eq_append_of_pastStale hx
    rw [pastStale_congr fun x hx => hfresh x (hpending x hx)] at hx
    rw [List.forall_mem_append, List.forall_mem_cons] at hpending
    obtain ⟨_, hPx, hrest⟩ := hpending
    have hpending' : ∀ y ∈ next x ++ rest, P y := List.forall_mem_append.2 ⟨hclosed x hPx, hrest⟩
    have hwithout : ∀ y, P y → (without x fresh).contains y = (without x fresh').contains y := by
      intro y hy
      rw [Bool.eq_iff_iff, contains_without, contains_without, hfresh y hy]
    rw [ih hpending' hwithout, hnext x hPx, walk.eq_def next' fresh']
    split <;> simp_all

/-- Which elements are fresh matters, but not in which order they are given. -/
theorem walk_congr [EquivBEq α] {fresh' : List α}
    (h : ∀ x, fresh.contains x = fresh'.contains x) :
    walk next fresh pending = walk next fresh' pending :=
  walk_congr_of_closed (P := fun _ => True) (fun _ _ => trivial) (fun _ _ _ _ => trivial)
    (fun _ _ => rfl) fun x _ => h x

/-- A walk lists exactly what is reached. -/
theorem contains_walk_iff [EquivBEq α] (hnext : ∀ x y, (x == y) = true → next x = next y) :
    (walk next fresh pending).contains x = true ↔ Reached next fresh pending x := by
  fun_induction walk next fresh pending with
  | case1 fresh pending hstale =>
    obtain ⟨stale, rfl, hnone⟩ := exists_eq_append_of_pastStale hstale
    rw [List.append_nil]
    exact ⟨fun h => by simp at h, fun h => absurd h (not_reached_of_stale hnone)⟩
  | case2 fresh pending y rest hy _ ih =>
    have hfresh : fresh.contains y = true := contains_of_pastStale_eq_cons hy
    obtain ⟨stale, rfl, hstale⟩ := exists_eq_append_of_pastStale hy
    rw [List.contains_cons, Bool.or_eq_true, ih]
    constructor
    · rintro (hxy | hx)
      · exact .pending ((contains_congr hxy).2 hfresh) (by simp [hxy])
      · exact hx.of_turn hfresh
    · exact fun h => h.turn hnext hstale

/-- For elements that are told apart by equality, a walk has exactly the reached ones as members. -/
theorem mem_walk_iff [LawfulBEq α] :
    x ∈ walk next fresh pending ↔ Reached next fresh pending x := by
  rw [← contains_walk_iff fun x y h => by rw [eq_of_beq h], List.contains_iff_mem]

/-- Where everything on the way is fresh, being reached is a closure of single steps. -/
theorem reached_iff_of_closed [LawfulBEq α] (hpending : ∀ y ∈ pending, y ∈ fresh)
    (hclosed : ∀ y, ∀ z ∈ next y, z ∈ fresh) :
    Reached next fresh pending x ↔
      ∃ y ∈ pending, Relation.ReflTransGen (fun y z => z ∈ next y) y x := by
  constructor
  · intro h
    induction h with
    | @pending x _ hx => exact ⟨x, List.contains_iff_mem.1 hx, .refl⟩
    | next _ _ hy ih =>
      obtain ⟨z, hz, hzx⟩ := ih
      exact ⟨z, hz, hzx.tail (List.contains_iff_mem.1 hy)⟩
  · rintro ⟨y, hy, h⟩
    induction h with
    | refl => exact .pending (List.contains_iff_mem.2 (hpending y hy)) (List.contains_iff_mem.2 hy)
    | tail _ hstep ih =>
      exact .next ih (List.contains_iff_mem.2 (hclosed _ _ hstep)) (List.contains_iff_mem.2 hstep)

end Wiring.Walk
