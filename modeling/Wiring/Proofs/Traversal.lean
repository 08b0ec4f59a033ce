import Mathlib.Data.List.Forall2
import Mathlib.Data.List.Perm.Basic
import Mathlib.Tactic.Common

/-!
# Computations that may fail

Computations in sequence succeed just if each of them does. A function that may fail, run on the
members of a list one after the other, succeeds with a list of results just if every member has
its result, position by position. Otherwise the first member that fails decides (`mapM_eq_error`).
-/

namespace Wiring.Traversal

universe u

variable {α β ε : Type*} {l : List α} {results : List β}

lemma bind_eq_ok_iff {α β : Type u} {x : Except ε α} {f : α → Except ε β} {b : β} :
    (x >>= f) = .ok b ↔ ∃ a, x = .ok a ∧ f a = .ok b := by
  cases x <;> simp [bind, Except.bind]

lemma mapError_eq_ok_iff {ε' : Type*} {x : Except ε α} {f : ε → ε'} {a : α} :
    x.mapError f = .ok a ↔ x = .ok a := by
  cases x <;> simp [Except.mapError]

theorem mapM_eq_some_iff {f : α → Option β} :
    l.mapM f = some results ↔ List.Forall₂ (fun x y => f x = some y) l results := by
  induction l generalizing results with
  | nil =>
    rw [List.forall₂_nil_left_iff, List.mapM_nil]
    exact ⟨fun h => (Option.some.inj h).symm, fun h => h ▸ rfl⟩
  | cons x l ih =>
    simp only [List.mapM_cons, List.forall₂_cons_left_iff, ← ih]
    cases f x <;> cases l.mapM f <;> simp [eq_comm]

theorem mapM_eq_ok_iff {f : α → Except ε β} :
    l.mapM f = .ok results ↔ List.Forall₂ (fun x y => f x = .ok y) l results := by
  induction l generalizing results with
  | nil =>
    rw [List.forall₂_nil_left_iff, List.mapM_nil]
    exact ⟨fun h => (Except.ok.inj h).symm, fun h => h ▸ rfl⟩
  | cons x l ih =>
    simp only [List.mapM_cons, List.forall₂_cons_left_iff, ← ih]
    cases f x <;> cases l.mapM f <;> simp [eq_comm, bind, Except.bind, pure, Except.pure]

lemma mapM_congr {f f' : α → Except ε β} (h : ∀ x ∈ l, f x = f' x) : l.mapM f = l.mapM f' := by
  induction l with
  | nil => rfl
  | cons x l ih =>
    obtain ⟨hx, h⟩ := List.forall_mem_cons.1 h
    rw [List.mapM_cons, List.mapM_cons, hx, ih h]

lemma mapM_append_eq_ok_iff {α β ε : Type u} {l l' : List α} {results : List β}
    {f : α → Except ε β} : (l ++ l').mapM f = .ok results ↔
      ∃ earlier later, l.mapM f = .ok earlier ∧ l'.mapM f = .ok later ∧
        results = earlier ++ later := by
  simp only [List.mapM_append, bind_eq_ok_iff, pure, Except.pure, Except.ok.injEq]
  constructor
  · rintro ⟨earlier, hearlier, later, hlater, rfl⟩
    exact ⟨earlier, later, hearlier, hlater, rfl⟩
  · rintro ⟨earlier, later, hearlier, hlater, rfl⟩
    exact ⟨earlier, hearlier, later, hlater, rfl⟩

lemma exists_forall₂ {p : α → β → Prop} (h : ∀ x ∈ l, ∃ y, p x y) :
    ∃ results, List.Forall₂ p l results := by
  induction l with
  | nil => exact ⟨[], .nil⟩
  | cons x l ih =>
    obtain ⟨y, hy⟩ := h x List.mem_cons_self
    obtain ⟨results, hresults⟩ := ih fun z hz => h z (List.mem_cons_of_mem x hz)
    exact ⟨y :: results, .cons hy hresults⟩

lemma exists_mem_of_forall₂ {p : α → β → Prop} {y : β} (h : List.Forall₂ p l results)
    (hy : y ∈ results) : ∃ x ∈ l, p x y := by
  induction h with
  | nil => cases hy
  | cons hxy _ ih =>
    rcases List.mem_cons.1 hy with rfl | hy
    · exact ⟨_, List.mem_cons_self, hxy⟩
    · obtain ⟨x, hx, hxy⟩ := ih hy
      exact ⟨x, List.mem_cons_of_mem _ hx, hxy⟩

/-- What a function keeps of its arguments, it keeps of a whole list of them. -/
lemma map_eq_of_mapM {κ : Type*} {f : α → Except ε β} {key : α → κ} {key' : β → κ}
    (hkey : ∀ x y, f x = .ok y → key' y = key x) (h : l.mapM f = .ok results) :
    results.map key' = l.map key := by
  have hresults := mapM_eq_ok_iff.1 h
  clear h
  induction hresults with
  | nil => rfl
  | cons hxy _ ih => rw [List.map_cons, List.map_cons, hkey _ _ hxy, ih]

/-- Run on the members in another order, a function gives its results in another order. -/
lemma exists_mapM_of_perm {l' : List α} {f : α → Except ε β} (hperm : l.Perm l')
    (h : l.mapM f = .ok results) :
    ∃ results', l'.mapM f = .ok results' ∧ results.Perm results' := by
  obtain ⟨results', h', hperm'⟩ := List.perm_comp_forall₂ hperm.symm (mapM_eq_ok_iff.1 h)
  exact ⟨results', mapM_eq_ok_iff.2 h', hperm'.symm⟩

/-! ### First members -/

/-- Of the members with the property, `x` comes first in the list. -/
def FirstWith (p : α → Prop) (l : List α) (x : α) : Prop :=
  ∃ before after, l = before ++ x :: after ∧ p x ∧ ∀ y ∈ before, ¬ p y

lemma exists_firstWith {p : α → Prop} (h : ∃ x ∈ l, p x) : ∃ x, FirstWith p l x := by
  induction l with
  | nil =>
    obtain ⟨x, hx, _⟩ := h
    cases hx
  | cons y l ih =>
    by_cases hy : p y
    · exact ⟨y, [], l, rfl, hy, by simp⟩
    · have h' : ∃ x ∈ l, p x := by
        obtain ⟨x, hx, hpx⟩ := h
        rcases List.mem_cons.1 hx with rfl | hx
        · exact absurd hpx hy
        · exact ⟨x, hx, hpx⟩
      obtain ⟨x, before, after, rfl, hx, hbefore⟩ := ih h'
      exact ⟨x, y :: before, after, rfl, hx, List.forall_mem_cons.2 ⟨hy, hbefore⟩⟩

/-- A sequence of computations fails with the first of them that fails. -/
theorem mapM_eq_error {f : α → Except ε β} {x : α} {e : ε}
    (hx : FirstWith (fun y => ∃ e, f y = .error e) l x) (he : f x = .error e) :
    l.mapM f = .error e := by
  obtain ⟨before, after, rfl, _, hbefore⟩ := hx
  induction before with
  | nil => simp [List.mapM_cons, he, bind, Except.bind]
  | cons y before ih =>
    obtain ⟨hy, hbefore⟩ := List.forall_mem_cons.1 hbefore
    cases hfy : f y with
    | error e' => exact absurd ⟨e', hfy⟩ hy
    | ok b => simp [List.mapM_cons, hfy, ih hbefore, bind, Except.bind]

end Wiring.Traversal
