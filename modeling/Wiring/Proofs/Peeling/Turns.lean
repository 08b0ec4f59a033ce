import Mathlib.Data.Set.Finite.Basic
import Mathlib.Logic.Relation
import Mathlib.Order.WellFounded
import Wiring.Proofs.Traversal

/-!
# Taking elements off in turn

Elements are taken off a list one by one, always the first one that no element left needs
(`TakenOff`). The result has the same elements, each before those that it needs. As long as no
element needs itself, directly or through others, there is always one to take
(`exists_takenOff`).

The order in which the elements are left is disturbed only by needs (`TakenOff.pairwise_of_rank`).
-/

namespace Wiring.Peeling

open Relation Traversal

variable {ι : Type*} {needs : ι → ι → Prop} {left taken : List ι}

/-- The elements that are left are taken off in this order: at every turn the first one that
none of those left needs. -/
inductive TakenOff (needs : ι → ι → Prop) : List ι → List ι → Prop
  | nil : TakenOff needs [] []
  | cons {before after rest : List ι} {j : ι}
      (hfree : ∀ i ∈ before ++ j :: after, ¬ needs i j)
      (hfirst : ∀ k ∈ before, ∃ i ∈ before ++ j :: after, needs i k)
      (hrest : TakenOff needs (before ++ after) rest) :
      TakenOff needs (before ++ j :: after) (j :: rest)

/-- The first element that is left is taken unless one of those left needs it. -/
lemma TakenOff.cons_first {j : ι} (hfree : ∀ i ∈ j :: left, ¬ needs i j)
    (hrest : TakenOff needs left taken) : TakenOff needs (j :: left) (j :: taken) :=
  @TakenOff.cons ι needs [] left taken j hfree (by simp) hrest

/-- Nothing gets lost and nothing is taken twice. -/
theorem TakenOff.perm (h : TakenOff needs left taken) : taken.Perm left := by
  induction h with
  | nil => exact .refl _
  | cons _ _ _ ih => exact (ih.cons _).trans List.perm_middle.symm

/-- An element that is taken is not needed by one that is taken later. -/
theorem TakenOff.pairwise (h : TakenOff needs left taken) :
    taken.Pairwise fun i j => ¬ needs j i := by
  induction h with
  | nil => exact .nil
  | cons hfree _ hrest ih =>
    refine List.pairwise_cons.2 ⟨?_, ih⟩
    intro i hi
    have hleft := hrest.perm.subset hi
    rw [List.mem_append] at hleft
    apply hfree i
    rw [List.mem_append, List.mem_cons]
    exact hleft.imp id .inr

/-- Only the needs among the elements left matter. -/
lemma TakenOff.congr {needs' : ι → ι → Prop} (h : TakenOff needs left taken)
    (hneeds : ∀ i ∈ left, ∀ j ∈ left, needs i j ↔ needs' i j) : TakenOff needs' left taken := by
  induction h with
  | nil => exact .nil
  | @cons before after rest j hfree hfirst _ ih =>
    have hsubset : before ++ after ⊆ before ++ j :: after :=
      ((List.sublist_cons_self j after).append_left before).subset
    refine .cons ?_ ?_ (ih fun i hi k hk => hneeds i (hsubset hi) k (hsubset hk))
    · intro i hi hij
      exact hfree i hi ((hneeds i hi j (by simp)).2 hij)
    · intro k hk
      obtain ⟨i, hi, hik⟩ := hfirst k hk
      exact ⟨i, hi, (hneeds i hi k (by simp [hk])).1 hik⟩

/-! ### There is always one to take -/

/-- Of finitely many elements that do not need each other in a circle, one is needed by none. -/
lemma exists_free (hacyclic : ∀ i, ¬ TransGen needs i i) (hleft : left ≠ []) :
    ∃ j ∈ left, ∀ i ∈ left, ¬ needs i j := by
  let above : {i // i ∈ left} → {i // i ∈ left} → Prop := fun i j => TransGen needs i j
  have hfinite : Finite {i // i ∈ left} := left.finite_toSet.to_subtype
  have htrans : IsTrans _ above := ⟨fun _ _ _ => TransGen.trans⟩
  have hirrefl : Std.Irrefl above := ⟨fun i => hacyclic i⟩
  have hwf : WellFounded above := Finite.wellFounded_of_trans_of_irrefl above
  obtain ⟨j, hj⟩ := List.exists_mem_of_ne_nil left hleft
  obtain ⟨⟨j, hj⟩, _, hleast⟩ := hwf.has_min Set.univ ⟨⟨j, hj⟩, trivial⟩
  exact ⟨j, hj, fun i hi hneeds => hleast ⟨i, hi⟩ trivial (.single hneeds)⟩

theorem exists_takenOff (hacyclic : ∀ i, ¬ TransGen needs i i) (left : List ι) :
    ∃ taken, TakenOff needs left taken := by
  induction hlength : left.length generalizing left with
  | zero =>
    obtain rfl := List.eq_nil_of_length_eq_zero hlength
    exact ⟨[], .nil⟩
  | succ length ih =>
    have hleft : left ≠ [] := List.ne_nil_of_length_eq_add_one hlength
    obtain ⟨j, before, after, rfl, hfree, hfirst⟩ := exists_firstWith (exists_free hacyclic hleft)
    obtain ⟨rest, hrest⟩ := ih (before ++ after) (by simp at hlength ⊢; omega)
    refine ⟨j :: rest, .cons hfree ?_ hrest⟩
    intro k hk
    simpa using hfirst k hk

/-! ### Turns out of order -/

/-- Whatever is needed is needed, directly or through others, by one that is itself free. -/
lemma exists_free_of_needs (hacyclic : ∀ i, ¬ TransGen needs i i) {i j : ι} (hi : i ∈ left)
    (hij : needs i j) : ∃ d ∈ left, TransGen needs d j ∧ ∀ k ∈ left, ¬ needs k d := by
  classical
  let above : List ι := left.filter fun k => TransGen needs k j
  have habove : ∀ {k}, k ∈ above ↔ k ∈ left ∧ TransGen needs k j := by simp [above]
  have hne : above ≠ [] := List.ne_nil_of_mem (habove.2 ⟨hi, .single hij⟩)
  obtain ⟨d, hd, hfree⟩ := exists_free hacyclic hne
  obtain ⟨hleft, hdj⟩ := habove.1 hd
  refine ⟨d, hleft, hdj, ?_⟩
  intro k hk hkd
  exact hfree k (habove.2 ⟨hk, hdj.head hkd⟩) hkd

/-- Elements that are left in falling rank are taken in falling rank as far as they are free. One
that is taken behind one of lower rank is needed, directly or through others, by one that ranks no
higher than that. -/
theorem TakenOff.pairwise_of_rank {rank : ι → ℕ} (hacyclic : ∀ i, ¬ TransGen needs i i)
    (h : TakenOff needs left taken) (hrank : left.Pairwise fun i j => rank j < rank i) :
    taken.Pairwise fun i j =>
      rank i < rank j → ∃ d ∈ left, rank d ≤ rank i ∧ TransGen needs d j := by
  induction h with
  | nil => exact .nil
  | @cons before after rest i hfree hfirst hrest ih =>
    have hsublist : (before ++ after).Sublist (before ++ i :: after) :=
      (List.sublist_cons_self i after).append_left before
    obtain ⟨_, hlate, _⟩ := List.pairwise_append.1 hrank
    have hafter : ∀ k ∈ after, rank k < rank i := (List.pairwise_cons.1 hlate).1
    refine List.pairwise_cons.2 ⟨?_, ?_⟩
    · intro j hj hij
      -- `j` outranks `i`, so it was left in front of `i` and passed over because it is needed
      have hbefore : j ∈ before := by
        rcases List.mem_append.1 (hrest.perm.subset hj) with hj | hj
        · exact hj
        · exact absurd (hafter j hj) (by omega)
      obtain ⟨k, hk, hkj⟩ := hfirst j hbefore
      obtain ⟨d, hd, hdj, hdfree⟩ := exists_free_of_needs hacyclic hk hkj
      refine ⟨d, hd, ?_, hdj⟩
      rcases List.mem_append.1 hd with hd | hd
      · obtain ⟨k, hk, hkd⟩ := hfirst d hd
        exact absurd hkd (hdfree k hk)
      · rcases List.mem_cons.1 hd with rfl | hd
        · exact le_refl _
        · exact (hafter d hd).le
    · refine (ih (hrank.sublist hsublist)).imp ?_
      intro k j hforced hkj
      obtain ⟨d, hd, hdk, hdj⟩ := hforced hkj
      exact ⟨d, hsublist.subset hd, hdk, hdj⟩

end Wiring.Peeling
