import Wiring.Graph.Routines
import Wiring.Proofs.Expansions
import Wiring.Proofs.Graph.Linking

/-!
# Transitive edges and the whole expansion

The transitive edges of a type leave out an edge that is the same as an earlier one, and with it
everything behind its target. Nothing gets lost by that, since no construction is circular: they are
the whole expansion of the type with only the first of the same edges kept
(`expandsOnce_of_build`).
-/

namespace Wiring.Graph

open Link Relation Sameness

variable {g : Graph} {e f : Edge} {t d : String} {l : List Edge}

/-! ### Expansions -/

/-- The edges of a type, each followed by the whole expansion of its target. -/
def Expansion (g : Graph) (t : String) : List Edge → Prop :=
  Walk.Expands (fun e => g.edgesOf e.target) (g.edgesOf t)

/-- An edge leads to a type from which one can go less far. -/
lemma WellLinked.exists_rank (h : g.WellLinked) :
    ∃ rank : Edge → ℕ, ∀ e, ∀ f ∈ g.edgesOf e.target, rank f < rank e := by
  refine ⟨fun e =>
    if e.target ∈ g.typeNames then (Link.reachable g.links e.target).length + 1 else 0, ?_⟩
  intro e f hf
  obtain ⟨n, hn, _⟩ := exists_node?_of_mem_edgesOf hf
  have he : e.target ∈ g.typeNames := mem_typeNames_iff.2 ⟨n, hn⟩
  simp only [he, if_true]
  split
  · next hft =>
    have hparameter := (h.target_mem_iff f (mem_edges_of_mem_edgesOf hf)).1 hft
    have hstep := h.step_links_iff.2 ⟨f, hf, hparameter, rfl⟩
    exact Nat.succ_lt_succ (length_reachable_lt h.not_cyclic (.single hstep))
  · exact Nat.succ_pos _

lemma edgesOf_target_congr (e f : Edge) (hef : (e == f) = true) :
    g.edgesOf e.target = g.edgesOf f.target := by
  rw [(edge_beq_iff.1 hef).2.1]

namespace WellLinked

variable (h : g.WellLinked)
include h

lemma exists_expansion (t : String) : ∃ l, ∀ l', g.Expansion t l' ↔ l' = l := by
  obtain ⟨rank, hrank⟩ := h.exists_rank
  obtain ⟨l, hl⟩ := Walk.exists_expands hrank (g.edgesOf t)
  refine ⟨l, fun l' => ⟨fun hl' => hl'.unique hl, ?_⟩⟩
  rintro rfl
  exact hl

lemma transitiveEdges_eq (hl : g.Expansion t l) : g.transitiveEdges t = l.eraseDups := by
  obtain ⟨rank, hrank⟩ := h.exists_rank
  refine Walk.walk_eq_eraseDups hrank edgesOf_target_congr hl fun e he => contains_of_mem ?_
  exact hl.forall_mem (fun _ => mem_edges_of_mem_edgesOf) (fun _ _ _ => mem_edges_of_mem_edgesOf)
    e he

/-- A target that has edges itself is a node that a link leads to. -/
lemma step_of_mem_edgesOf (he : e ∈ g.edgesOf t) (hf : f ∈ g.edgesOf e.target) :
    Step g.links t e.target := by
  obtain ⟨n, hn, _⟩ := exists_node?_of_mem_edgesOf hf
  have hparameter := (h.target_mem_iff e (mem_edges_of_mem_edgesOf he)).1
    (mem_typeNames_iff.2 ⟨n, hn⟩)
  exact h.step_links_iff.2 ⟨e, he, hparameter, rfl⟩

/-- The expansion of a type has exactly the edges of the types that links lead to from it. -/
theorem mem_expansion_iff (hl : g.Expansion t l) :
    e ∈ l ↔ ∃ d, ReflTransGen (Step g.links) t d ∧ e ∈ g.edgesOf d := by
  constructor
  · refine hl.forall_mem (P := fun e => ∃ d, ReflTransGen (Step g.links) t d ∧ e ∈ g.edgesOf d)
      (fun e he => ⟨t, .refl, he⟩) ?_ e
    rintro e ⟨d, htd, he⟩ f hf
    exact ⟨e.target, htd.tail (h.step_of_mem_edgesOf he hf), hf⟩
  · rintro ⟨d, htd, he⟩
    induction htd generalizing e with
    | refl => exact hl.pending_subset he
    | tail _ hstep ih =>
      obtain ⟨f, hf, _, rfl⟩ := h.step_links_iff.1 hstep
      exact hl.next_subset (ih hf) he

/-! ### Reachable types -/

omit h in
lemma mem_reachable_iff_transGen :
    d ∈ g.reachable t ↔ TransGen (fun t d => ∃ e ∈ g.edgesOf t, e.target = d) t d := by
  have hclosed : ∀ c, ∀ d ∈ (g.edgesOf c).map Edge.target, d ∈ g.edges.map Edge.target := by
    intro c d hd
    obtain ⟨e, he, rfl⟩ := List.mem_map.1 hd
    exact List.mem_map_of_mem (mem_edges_of_mem_edgesOf he)
  rw [Graph.reachable, Walk.mem_walk_iff, Walk.reached_iff_of_closed (hclosed t) hclosed,
    TransGen.head'_iff]
  simp only [List.mem_map]

lemma reflTransGen_of_mem_edgesOf
    (htd : ReflTransGen (fun t d => ∃ e ∈ g.edgesOf t, e.target = d) t d)
    (he : e ∈ g.edgesOf d) : ReflTransGen (Step g.links) t d := by
  induction htd generalizing e with
  | refl => exact .refl
  | tail _ hstep ih =>
    obtain ⟨f, hf, rfl⟩ := hstep
    exact (ih hf).tail (h.step_of_mem_edgesOf hf he)

/-- The reachable types are the targets of the edges of the types that links lead to. -/
theorem mem_reachable_iff : d ∈ g.reachable t ↔
    ∃ c, ReflTransGen (Step g.links) t c ∧ ∃ e ∈ g.edgesOf c, e.target = d := by
  rw [mem_reachable_iff_transGen, TransGen.tail'_iff]
  constructor
  · rintro ⟨c, htc, e, he, rfl⟩
    exact ⟨c, h.reflTransGen_of_mem_edgesOf htc he, e, he, rfl⟩
  · rintro ⟨c, htc, hcd⟩
    refine ⟨c, ReflTransGen.mono ?_ _ _ htc, hcd⟩
    intro a b hstep
    obtain ⟨e, he, _, htarget⟩ := h.step_links_iff.1 hstep
    exact ⟨e, he, htarget⟩

lemma mem_cons_reachable (htd : ReflTransGen (Step g.links) t d) : d ∈ t :: g.reachable t := by
  rcases htd.cases_tail with rfl | ⟨c, htc, hstep⟩
  · exact List.mem_cons_self
  · obtain ⟨e, he, _, rfl⟩ := h.step_links_iff.1 hstep
    exact List.mem_cons_of_mem _ (h.mem_reachable_iff.2 ⟨c, htc, e, he, rfl⟩)

end WellLinked

/-! ### Transitive edges -/

/-- The transitive edges of a type are its whole expansion with the first of the same edges kept. -/
structure ExpandsOnce (g : Graph) (t : String) : Prop where
  exists_expansion : ∃ l, (∀ l', g.Expansion t l' ↔ l' = l) ∧ g.transitiveEdges t = l.eraseDups
  /-- Every edge of the type and of those that it reaches is there. -/
  complete : ∀ d ∈ t :: g.reachable t, ∀ e ∈ g.edgesOf d, (g.transitiveEdges t).contains e = true
  /-- No other edge is there. -/
  sound : ∀ e ∈ g.transitiveEdges t, ∃ d ∈ t :: g.reachable t, e ∈ g.edgesOf d
  distinct : (g.transitiveEdges t).Pairwise fun e f => (e == f) = false
  target_iff : ∀ d, (∃ e ∈ g.transitiveEdges t, e.target = d) ↔ d ∈ g.reachable t

/-- Leaving out edges that are the same as earlier ones loses nothing. -/
theorem expandsOnce_of_build {settings : Settings} {functions : List Signature}
    {injectables : List Injectable} (hg : build settings functions injectables = .ok g)
    (t : String) : g.ExpandsOnce t := by
  have h := wellLinked_of_build hg
  obtain ⟨l, hl⟩ := h.exists_expansion t
  have hexpansion : g.Expansion t l := (hl l).2 rfl
  have heq := h.transitiveEdges_eq hexpansion
  have hcontains : ∀ e ∈ l, (g.transitiveEdges t).contains e = true := by
    intro e he
    rw [heq, contains_eraseDups]
    exact contains_of_mem he
  have hmem : ∀ e ∈ g.transitiveEdges t,
      ∃ d, ReflTransGen (Step g.links) t d ∧ e ∈ g.edgesOf d := by
    intro e he
    rw [heq] at he
    exact (h.mem_expansion_iff hexpansion).1 (mem_of_mem_eraseDups l he)
  constructor
  case exists_expansion => exact ⟨l, hl, heq⟩
  case complete =>
    intro d hd e he
    apply hcontains
    rcases List.mem_cons.1 hd with rfl | hd
    · exact hexpansion.pending_subset he
    · obtain ⟨c, htc, f, hf, rfl⟩ := h.mem_reachable_iff.1 hd
      exact hexpansion.next_subset ((h.mem_expansion_iff hexpansion).2 ⟨c, htc, hf⟩) he
  case sound =>
    intro e he
    obtain ⟨d, htd, he⟩ := hmem e he
    exact ⟨d, h.mem_cons_reachable htd, he⟩
  case distinct =>
    rw [heq]
    exact pairwise_eraseDups l
  case target_iff =>
    intro d
    rw [h.mem_reachable_iff]
    constructor
    · rintro ⟨e, he, rfl⟩
      obtain ⟨c, htc, he⟩ := hmem e he
      exact ⟨c, htc, e, he, rfl⟩
    · rintro ⟨c, htc, e, he, rfl⟩
      have hcontained := hcontains e ((h.mem_expansion_iff hexpansion).2 ⟨c, htc, he⟩)
      obtain ⟨f, hf, hef⟩ := List.contains_iff_exists_mem_beq.1 hcontained
      exact ⟨f, hf, (edge_beq_iff.1 hef).2.1.symm⟩

/-- Two types share the edge of an argument whose binding name only one of them spells out. -/
theorem expandsOnce_of_shared_store :
    let injectables : List Injectable :=
      [⟨"App", { name := "init", arguments := [⟨"left", none, "Left"⟩, ⟨"right", none, "Right"⟩] }⟩,
        ⟨"Left", { name := "init", arguments := [⟨"store", none, "Store"⟩] }⟩,
        ⟨"Right", { name := "init", arguments := [⟨"store", some "store", "Store"⟩] }⟩,
        ⟨"Store", { name := "init", arguments := [⟨"path", none, "String"⟩] }⟩]
    let g := ofRecipes {} (Recipe.all {} [] injectables)
    build {} [] injectables = .ok g ∧
      (g.transitiveEdges "App").map Edge.target = ["Left", "Store", "String", "Right"] ∧
      g.ExpandsOnce "App" := by
  intro injectables g
  have hg : build {} [] injectables = .ok g := by decide +kernel
  exact ⟨hg, by decide +kernel, expandsOnce_of_build hg "App"⟩

end Wiring.Graph
