import Wiring.Hierarchy
import Wiring.Proofs.Circles

/-!
# Interfaces and what is above them

The interfaces above another one are those that links lead to (`mem_ancestors_iff`). A hierarchy
that has not been refused has no circle, so no interface is above itself.

A marker need not be declared to be asked for: an interface extends it if it or one above it names
it (`inherits_iff`).

The functions of an interface and of those above it are, up to sameness, the functions of its
lineage (`contains_transitiveFunctions_iff`). An interface therefore has all functions that those
above it have.
-/

namespace Wiring.Hierarchy

open Relation Link Sameness

variable {h : Hierarchy} {a b c marker : String} {f : Signature}

/-! ### Parents and links -/

lemma mem_names_of_mem_parents (hab : b ∈ h.parents a) : b ∈ h.names := by
  rw [parents, List.mem_filter] at hab
  exact List.contains_iff_mem.1 hab.2

lemma inherited_eq_nil (ha : a ∉ h.names) : h.inherited a = [] := by
  have hnone : h.find? a = none := find?_key_eq_none_iff.2 ha
  rw [inherited, hnone]
  rfl

lemma parents_eq_nil (ha : a ∉ h.names) : h.parents a = [] := by
  rw [parents, inherited_eq_nil ha]
  rfl

lemma step_links_iff : Step h.links a b ↔ b ∈ h.parents a := by
  simp only [Step, links, List.mem_flatMap, List.mem_map, Names.mem_sorted, Link.mk.injEq]
  constructor
  · rintro ⟨child, _, parent, hparent, rfl, rfl⟩
    exact hparent
  · intro hab
    -- the parents of a name that is not declared are not linked, but there are none
    by_cases ha : a ∈ h.names
    · exact ⟨a, ha, b, hab, rfl, rfl⟩
    · simp [parents_eq_nil ha] at hab

theorem mem_ancestors_iff : b ∈ h.ancestors a ↔ TransGen (Step h.links) a b := by
  have hclosed : ∀ c, ∀ d ∈ h.parents c, d ∈ h.names :=
    fun _ _ hd => mem_names_of_mem_parents hd
  have hstep : (fun c d => d ∈ h.parents c) = Step h.links := by
    funext c d
    exact propext step_links_iff.symm
  rw [ancestors, Walk.mem_walk_iff, Walk.reached_iff_of_closed (hclosed a) hclosed, hstep,
    TransGen.head'_iff]
  simp only [step_links_iff]

lemma nodup_ancestors (h : Hierarchy) (a : String) : (h.ancestors a).Nodup :=
  (Walk.pairwise_walk _ _ _).imp fun hbc => by simpa using hbc

lemma mem_ancestors_trans (hab : b ∈ h.ancestors a) (hbc : c ∈ h.ancestors b) :
    c ∈ h.ancestors a := by
  rw [mem_ancestors_iff] at *
  exact hab.trans hbc

lemma not_mem_ancestors_self (hacyclic : ¬ Cyclic h.links) : a ∉ h.ancestors a :=
  fun ha => hacyclic ⟨a, mem_ancestors_iff.1 ha⟩

theorem ofInterfaces_eq_ok_iff {declared : List Interface} :
    ofInterfaces declared = .ok h ↔ h = ⟨effective declared⟩ ∧ ¬ Cyclic h.links := by
  rw [ofInterfaces]
  refine accepted_iff.trans ?_
  constructor
  · rintro ⟨rfl, hacyclic⟩
    exact ⟨rfl, hacyclic⟩
  · rintro ⟨rfl, hacyclic⟩
    exact ⟨rfl, hacyclic⟩

/-! ### Markers -/

/-- An interface, or one that links lead to from it, names the marker among its parents. -/
def Extends (h : Hierarchy) (a marker : String) : Prop :=
  ∃ b, ReflTransGen (Step h.links) a b ∧ marker ∈ h.inherited b

lemma inherits_iff : h.inherits a marker = true ↔ h.Extends a marker := by
  simp only [inherits, List.any_eq_true, List.mem_cons, List.contains_iff_mem, Extends,
    reflTransGen_iff_eq_or_transGen, mem_ancestors_iff]

/-- What lies below an interface that extends the marker extends it too. -/
lemma Extends.of_transGen (hab : TransGen (Step h.links) a b) (hb : h.Extends b marker) :
    h.Extends a marker := by
  obtain ⟨c, hbc, hc⟩ := hb
  exact ⟨c, hab.to_reflTransGen.trans hbc, hc⟩

lemma mem_names_of_extends (ha : h.Extends a marker) : a ∈ h.names := by
  by_contra hnone
  obtain ⟨b, hab, hb⟩ := ha
  rcases hab.cases_head with rfl | ⟨c, hac, _⟩
  · simp [inherited_eq_nil hnone] at hb
  · simp [step_links_iff, parents_eq_nil hnone] at hac

/-! ### Functions -/

lemma mem_lineage_iff : b ∈ h.lineage a ↔ b = a ∨ b ∈ h.ancestors a := by
  rw [lineage, List.mem_append, List.mem_reverse, List.mem_singleton, or_comm]

lemma nodup_lineage (hacyclic : ¬ Cyclic h.links) : (h.lineage a).Nodup := by
  rw [lineage, List.nodup_append]
  refine ⟨List.nodup_reverse.2 (nodup_ancestors h a), List.nodup_singleton a, ?_⟩
  intro b hb c hc
  rw [List.mem_singleton.1 hc]
  rintro rfl
  exact not_mem_ancestors_self hacyclic (List.mem_reverse.1 hb)

lemma lineage_subset (hab : b ∈ h.ancestors a) : h.lineage b ⊆ h.lineage a := by
  intro c hc
  rw [mem_lineage_iff] at *
  rcases hc with rfl | hc
  · exact .inr hab
  · exact .inr (mem_ancestors_trans hab hc)

theorem contains_transitiveFunctions_iff :
    (h.transitiveFunctions a).contains f = true ↔
      ∃ b ∈ h.lineage a, (h.functions b).contains f = true := by
  rw [transitiveFunctions, contains_eraseDups]
  simp only [List.contains_iff_exists_mem_beq, List.mem_flatMap]
  constructor
  · rintro ⟨f', ⟨b, hb, hf'⟩, hff'⟩
    exact ⟨b, hb, f', hf', hff'⟩
  · rintro ⟨b, hb, f', hf', hff'⟩
    exact ⟨f', ⟨b, hb, hf'⟩, hff'⟩

/-- An interface has all functions of an interface above it. -/
theorem contains_transitiveFunctions_of_ancestor (hab : b ∈ h.ancestors a)
    (hf : (h.transitiveFunctions b).contains f = true) :
    (h.transitiveFunctions a).contains f = true := by
  obtain ⟨c, hc, hfc⟩ := contains_transitiveFunctions_iff.1 hf
  exact contains_transitiveFunctions_iff.2 ⟨c, lineage_subset hab hc, hfc⟩

end Wiring.Hierarchy
