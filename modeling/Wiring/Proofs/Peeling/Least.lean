import Mathlib.Order.Defs.LinearOrder
import Wiring.Proofs.Peeling.Entries

/-!
# The least order

An order respects the needs if each element stands in front of those that it needs. Taking elements
off in turn gives such an order whenever there is one, and of all such orders the least one: at the
first place where another order differs, it has an element that was left behind the one taken
(`TakenOff.lex`).

So `peel`, with any equivalence, fails just if entries depend on each other in a circle, and its
result is the least order that respects what the entries depend on (`isSome_peel_and_least`).
-/

namespace Wiring.Peeling

open Relation

section Orders

variable {ι : Type*} [LinearOrder ι] {needs : ι → ι → Prop} {left taken order other : List ι}
variable {i j : ι}

/-- The elements are put into an order with each one in front of those that it needs. -/
structure Respects (needs : ι → ι → Prop) (left order : List ι) : Prop where
  perm : order.Perm left
  idxOf_lt : ∀ i ∈ left, ∀ j ∈ left, needs i j → order.idxOf i < order.idxOf j

lemma TakenOff.respects (h : TakenOff needs left taken) : Respects needs left taken := by
  refine ⟨h.perm, ?_⟩
  induction h with
  | nil => simp
  | @cons before after rest k hfree hfirst hrest ih =>
    intro i hi j hj hij
    have hjk : k ≠ j := fun heq => hfree i hi (heq ▸ hij)
    rw [List.idxOf_cons_ne _ hjk]
    by_cases hik : k = i
    · rw [hik, List.idxOf_cons_self]
      exact Nat.succ_pos _
    · rw [List.idxOf_cons_ne _ hik]
      refine Nat.succ_lt_succ (ih i ?_ j ?_ hij)
      · simpa [Ne.symm hik] using hi
      · simpa [Ne.symm hjk] using hj

/-- An order that respects the needs leaves no room for a circle. -/
lemma Respects.not_transGen_self (h : Respects needs left order) (hall : ∀ i, i ∈ left) :
    ¬ TransGen needs i i := by
  intro hi
  have hlt := hi.lift (p := (· < ·)) order.idxOf fun i j => h.idxOf_lt i (hall i) j (hall j)
  rw [transGen_eq_self] at hlt
  exact lt_irrefl _ hlt

/-- Nothing that is left needs the first element of the order. -/
lemma Respects.free (h : Respects needs left (j :: order)) :
    j ∈ left ∧ ∀ i ∈ left, ¬ needs i j := by
  have hj : j ∈ left := h.perm.subset List.mem_cons_self
  refine ⟨hj, ?_⟩
  intro i hi hij
  have hlt := h.idxOf_lt i hi j hj hij
  simp at hlt

lemma Respects.tail {before after : List ι} (hnodup : (before ++ j :: after).Nodup)
    (h : Respects needs (before ++ j :: after) (j :: order)) :
    Respects needs (before ++ after) order := by
  have hj : j ∉ before ++ after := (List.nodup_middle.1 hnodup).notMem
  refine ⟨(List.perm_cons j).1 (h.perm.trans List.perm_middle), ?_⟩
  intro i hi k hk hik
  have hsubset : before ++ after ⊆ before ++ j :: after :=
    ((List.sublist_cons_self j after).append_left before).subset
  have hlt := h.idxOf_lt i (hsubset hi) k (hsubset hk) hik
  rw [List.idxOf_cons_ne _ (ne_of_mem_of_not_mem hi hj).symm,
    List.idxOf_cons_ne _ (ne_of_mem_of_not_mem hk hj).symm] at hlt
  exact Nat.lt_of_succ_lt_succ hlt

/-- Elements that are left in ascending order are taken off in the least order that respects the
needs. -/
theorem TakenOff.lex (h : TakenOff needs left taken) (hsorted : left.Pairwise (· < ·))
    (hother : Respects needs left other) : taken = other ∨ List.Lex (· < ·) taken other := by
  induction h generalizing other with
  | nil => exact .inl hother.perm.eq_nil.symm
  | @cons before after rest j hfree hfirst hrest ih =>
    cases other with
    | nil => simpa using hother.perm.length_eq
    | cons k other =>
      obtain ⟨hk, hkfree⟩ := hother.free
      rcases List.mem_append.1 hk with hk | hk
      · -- what was passed over is needed, so no order can begin with it
        obtain ⟨i, hi, hik⟩ := hfirst k hk
        exact absurd hik (hkfree i hi)
      · rcases List.mem_cons.1 hk with rfl | hk
        · have hsublist := (List.sublist_cons_self k after).append_left before
          have hrest := ih (hsorted.sublist hsublist) (hother.tail hsorted.nodup)
          exact hrest.imp (congrArg (k :: ·)) .cons
        · have hlate := (List.pairwise_append.1 hsorted).2.1
          exact .inr (.rel ((List.pairwise_cons.1 hlate).1 k hk))

end Orders

/-! ### Dependence among entries -/

variable {α : Type*} {same : α → α → Bool} {demands : List (Demand α)}

/-- The one entry depends on the other, as the first one whose element is the same as one that it
needs. -/
def DependsOn (same : α → α → Bool) (demands : List (Demand α)) (i j : Fin demands.length) : Prop :=
  ∃ need ∈ demands[i].needs, same demands[j].element need = true ∧
    ∀ k < j, same demands[k].element need = false

lemma find?_finRange_eq_some_iff {n : ℕ} {p : Fin n → Bool} {j : Fin n} :
    (List.finRange n).find? p = some j ↔ p j = true ∧ ∀ k < j, p k = false := by
  rw [List.find?_eq_some_iff_getElem]
  apply and_congr_right
  intro _
  constructor
  · rintro ⟨i, hi, rfl, hearlier⟩ k hk
    simpa using hearlier k (by simpa [Fin.lt_def] using hk)
  · intro hearlier
    refine ⟨j, by simp, by simp, ?_⟩
    intro k hk
    simpa using hearlier ⟨k, hk.trans j.isLt⟩ hk

lemma needs_get_iff {i j : Fin demands.length} :
    Needs same demands.get (List.finRange demands.length) i j ↔ DependsOn same demands i j := by
  simp only [Needs, position?, find?_finRange_eq_some_iff, DependsOn, List.get_eq_getElem,
    Fin.getElem_fin]

/-- Peeling fails just if entries depend on each other in a circle. Otherwise it gives the elements
in the least order of their places that has each entry in front of those that it depends on. -/
theorem isSome_peel_and_least (hsame : Equivalence fun a b => same a b = true)
    (demands : List (Demand α)) :
    ((peel same demands).isSome = true ↔ ∀ i, ¬ TransGen (DependsOn same demands) i i) ∧
      ∀ result, peel same demands = some result →
        ∃ order : List (Fin demands.length), result = order.map (fun i => demands[i].element) ∧
          Respects (DependsOn same demands) (List.finRange demands.length) order ∧
          ∀ other, Respects (DependsOn same demands) (List.finRange demands.length) other →
            order = other ∨ List.Lex (· < ·) order other := by
  have hneeds : Needs same demands.get (List.finRange demands.length) = DependsOn same demands := by
    funext i j
    exact propext needs_get_iff
  have hpeel := peel_eq_some_iff demands.get hsame (List.nodup_finRange demands.length)
  rw [List.map_get_finRange, hneeds] at hpeel
  constructor
  · rw [Option.isSome_iff_exists]
    constructor
    · rintro ⟨result, hresult⟩ i
      obtain ⟨taken, htaken, _⟩ := (hpeel result).1 hresult
      exact htaken.respects.not_transGen_self List.mem_finRange
    · intro hacyclic
      obtain ⟨taken, htaken⟩ := exists_takenOff hacyclic (List.finRange demands.length)
      exact ⟨_, (hpeel _).2 ⟨taken, htaken, rfl⟩⟩
  · intro result hresult
    obtain ⟨taken, htaken, rfl⟩ := (hpeel result).1 hresult
    exact ⟨taken, rfl, htaken.respects, fun _ => htaken.lex (List.pairwise_lt_finRange _)⟩

/-- Letters without regard to case, two of them twice: the last `a` depends on the first `b` and not
on the second one. -/
theorem isSome_peel_and_least_of_letters :
    let same : Char → Char → Bool := fun a b => a.toLower == b.toLower
    let demands : List (Demand Char) :=
      [⟨'b', []⟩, ⟨'a', ['B', 'C', 'b', 'x']⟩, ⟨'B', ['c']⟩, ⟨'C', []⟩, ⟨'a', ['B']⟩]
    peel same demands = some ['a', 'B', 'C', 'a', 'b'] ∧
      (∀ i, ¬ TransGen (DependsOn same demands) i i) ∧
      ∃ order : List (Fin demands.length),
        order.map (fun i => demands[i].element) = ['a', 'B', 'C', 'a', 'b'] ∧
        Respects (DependsOn same demands) (List.finRange demands.length) order ∧
        ∀ other, Respects (DependsOn same demands) (List.finRange demands.length) other →
          order = other ∨ List.Lex (· < ·) order other := by
  intro same demands
  have hsame : Equivalence fun a b => same a b = true := by
    simpa [same] using (eq_equivalence (α := Char)).comap Char.toLower
  have hpeel : peel same demands = some ['a', 'B', 'C', 'a', 'b'] := by decide +kernel
  obtain ⟨hisSome, hleast⟩ := isSome_peel_and_least hsame demands
  obtain ⟨order, helements, hrest⟩ := hleast _ hpeel
  exact ⟨hpeel, hisSome.1 (by rw [hpeel]; rfl), order, helements.symm, hrest⟩

end Wiring.Peeling
