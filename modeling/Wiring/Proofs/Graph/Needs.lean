import Wiring.Proofs.Graph.Expansion

/-!
# What a construction needs

The transitive edges of a type are, up to sameness, the edges of the types that links lead to from
it (`contains_transitiveEdges_iff`). The parameters that its construction requires are the
arguments of those among them that have to be passed in (`contains_requiredArguments_iff`), so
that a type requires whatever one that it takes does (`contains_requiredArguments_of_step`).
-/

namespace Wiring.Graph

open Link Relation Sameness

variable {g : Graph} {e f : Edge} {t d : String} {a : Argument}

/-! ### Transitive edges -/

/-- The transitive edges of a type are the edges of the types that links lead to from it. -/
theorem contains_transitiveEdges_iff (h : g.WellLinked) :
    (g.transitiveEdges t).contains e = true ↔
      ∃ d, ReflTransGen (Step g.links) t d ∧ ∃ f ∈ g.edgesOf d, (e == f) = true := by
  obtain ⟨l, hl⟩ := h.exists_expansion t
  have hexpansion : g.Expansion t l := (hl l).2 rfl
  rw [h.transitiveEdges_eq hexpansion, contains_eraseDups, List.contains_iff_exists_mem_beq]
  simp only [h.mem_expansion_iff hexpansion]
  constructor
  · rintro ⟨f, ⟨d, htd, hf⟩, hef⟩
    exact ⟨d, htd, f, hf, hef⟩
  · rintro ⟨d, htd, f, hf, hef⟩
    exact ⟨f, ⟨d, htd, hf⟩, hef⟩

/-! ### Required arguments -/

lemma contains_requiredArguments_iff (h : g.WellLinked) :
    (g.requiredArguments t).contains a = true ↔
      ∃ d, ReflTransGen (Step g.links) t d ∧
        ∃ e ∈ g.edgesOf d, e.isParameter = true ∧ (a == e.argument) = true := by
  rw [requiredArguments, contains_eraseDups]
  simp only [List.contains_iff_exists_mem_beq, List.mem_map, List.mem_filter]
  constructor
  · rintro ⟨_, ⟨e, ⟨he, hparameter⟩, rfl⟩, hae⟩
    obtain ⟨d, htd, f, hf, hef⟩ := (contains_transitiveEdges_iff h).1 (contains_of_mem he)
    obtain ⟨hargument, _, hkind, _⟩ := edge_beq_iff.1 hef
    exact ⟨d, htd, f, hf, hkind ▸ hparameter, BEq.trans hae hargument⟩
  · rintro ⟨d, htd, e, he, hparameter, hae⟩
    have hcontains := (contains_transitiveEdges_iff h).2 ⟨d, htd, e, he, BEq.rfl⟩
    obtain ⟨f, hf, hef⟩ := List.contains_iff_exists_mem_beq.1 hcontains
    obtain ⟨hargument, _, hkind, _⟩ := edge_beq_iff.1 hef
    exact ⟨_, ⟨f, ⟨hf, hkind ▸ hparameter⟩, rfl⟩, BEq.trans hae hargument⟩

/-- A type requires what a type that it takes requires. -/
theorem contains_requiredArguments_of_step (h : g.WellLinked) (hstep : Step g.links t d)
    (ha : (g.requiredArguments d).contains a = true) :
    (g.requiredArguments t).contains a = true := by
  obtain ⟨d', hdd', hrest⟩ := (contains_requiredArguments_iff h).1 ha
  exact (contains_requiredArguments_iff h).2 ⟨d', hdd'.head hstep, hrest⟩

lemma contains_requiredArguments_of_mem (h : g.WellLinked) (he : e ∈ g.edgesOf t)
    (hparameter : e.isParameter = true) : (g.requiredArguments t).contains e.argument = true :=
  (contains_requiredArguments_iff h).2 ⟨t, .refl, e, he, hparameter, BEq.rfl⟩

lemma pairwise_requiredArguments (g : Graph) (t : String) :
    (g.requiredArguments t).Pairwise fun a b => (a == b) = false :=
  pairwise_eraseDups _

end Wiring.Graph
