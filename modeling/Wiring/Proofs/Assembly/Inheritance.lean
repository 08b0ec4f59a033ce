import Wiring.Assembly
import Wiring.Proofs.Graph.Linking
import Wiring.Proofs.Lineage
import Wiring.Proofs.Traversal

/-!
# Inheritance among resolvers

What is known of the resolvers of a run is that each one is built from the provide functions of
its provider, in a hierarchy without a circle (`Composed`). A resolver inherits from exactly the
resolvers of the providers above its own (`Composed.mem_transitiveParents_iff`), and it constructs
every type that one of them constructs (`Composed.typeNames_subset`).

Inheritance has no infinite descent: among a resolver and those that it inherits from, one with a
given property is found that inherits from none with it (`Composed.exists_topmost`).
-/

namespace Wiring

open Link Sameness

variable {settings : Settings} {h : Hierarchy} {injectables : List Injectable}

/-! ### Types of a graph -/

namespace Graph

variable {functions functions' : List Signature} {g g' : Graph} {t : String}

/-- With more provide functions no type is lost. -/
theorem typeNames_subset_of_build (hg : build settings functions injectables = .ok g)
    (hg' : build settings functions' injectables = .ok g')
    (hfunctions : ∀ f ∈ functions, functions'.contains f = true) :
    g.typeNames ⊆ g'.typeNames := by
  intro t ht
  rw [mem_typeNames_of_build hg] at ht
  rw [mem_typeNames_of_build hg']
  refine ht.imp id ?_
  rintro ⟨f, hf, hreturned⟩
  obtain ⟨f', hf', hff'⟩ := List.contains_iff_exists_mem_beq.1 (hfunctions f hf)
  obtain ⟨_, _, _, hsame⟩ := signature_beq_iff.1 hff'
  exact ⟨f', hf', by rw [← hsame, hreturned]⟩

end Graph

/-! ### Provide functions -/

namespace Hierarchy

variable {a b : String} {f : Signature}

lemma isProvide_congr {f f' : Signature} (hff' : (f == f') = true) :
    settings.isProvide f = settings.isProvide f' := by
  obtain ⟨_, hname, _, hreturned⟩ := signature_beq_iff.1 hff'
  rw [Settings.isProvide, Settings.isProvide, hname, hreturned]

/-- A provider has all provide functions of a provider above it. -/
lemma contains_provideFunctions_of_ancestor (hab : b ∈ h.ancestors a)
    (hf : f ∈ h.provideFunctions settings b) :
    (h.provideFunctions settings a).contains f = true := by
  obtain ⟨hf, hprovide⟩ := List.mem_filter.1 hf
  have hcontains := contains_transitiveFunctions_of_ancestor hab (contains_of_mem hf)
  obtain ⟨f', hf', hff'⟩ := List.contains_iff_exists_mem_beq.1 hcontains
  refine List.contains_iff_exists_mem_beq.2 ⟨f', List.mem_filter.2 ⟨hf', ?_⟩, hff'⟩
  rw [← isProvide_congr hff', hprovide]

lemma mem_providerAncestors_iff : b ∈ h.providerAncestors settings a ↔
    b ∈ h.ancestors a ∧ b ∈ h.providerNames settings := by
  rw [providerAncestors, List.mem_filter, List.contains_iff_mem]

lemma mem_providerAncestors_trans {c : String} (hab : b ∈ h.providerAncestors settings a)
    (hbc : c ∈ h.providerAncestors settings b) : c ∈ h.providerAncestors settings a := by
  rw [mem_providerAncestors_iff] at *
  exact ⟨mem_ancestors_trans hab.1 hbc.1, hbc.2⟩

end Hierarchy

/-! ### Composed assemblies -/

namespace Assembly

variable {a : Assembly} {r p q : Resolver} {m : Manifest}

/-- The resolvers of the assembly are built from a hierarchy and injectable types. -/
structure Composed (settings : Settings) (h : Hierarchy) (injectables : List Injectable)
    (a : Assembly) : Prop where
  not_cyclic : ¬ Cyclic h.links
  build_eq : ∀ r ∈ a.resolvers, Resolver.build settings h injectables r.provider.name = .ok r
  naming_eq : a.naming = settings.naming

lemma fields_of_build {name : String} (hr : Resolver.build settings h injectables name = .ok r) :
    r.provider = h.provider settings name ∧
      Graph.build settings (h.provideFunctions settings name) injectables = .ok r.graph ∧
      r.parents = h.providerAncestors settings name := by
  rw [Resolver.build] at hr
  split at hr
  · next graph hgraph =>
    cases hr
    exact ⟨rfl, hgraph, rfl⟩
  · cases hr

/-- A run succeeds with the resolvers of the providers in composed order. -/
lemma compose_eq_ok_iff : compose settings m = .ok a ↔
    ∃ injectables h order, m.injectables settings.markers.injectable = .ok injectables ∧
      Hierarchy.ofInterfaces m.interfaces = .ok h ∧ h.composedOrder settings = some order ∧
      order.mapM (Resolver.build settings h injectables) = .ok a.resolvers ∧
      a.naming = settings.naming := by
  rw [compose, Traversal.bind_eq_ok_iff]
  simp only [Traversal.bind_eq_ok_iff, Traversal.mapError_eq_ok_iff]
  constructor
  · rintro ⟨injectables, hinjectables, h, hh, hordered⟩
    split at hordered
    · cases hordered
    · next order horder =>
      obtain ⟨resolvers, hresolvers, hok⟩ := Traversal.bind_eq_ok_iff.1 hordered
      cases hok
      exact ⟨injectables, h, order, hinjectables, hh, horder, hresolvers, rfl⟩
  · rintro ⟨injectables, h, order, hinjectables, hh, horder, hresolvers, hnaming⟩
    refine ⟨injectables, hinjectables, h, hh, ?_⟩
    rw [horder]
    refine Traversal.bind_eq_ok_iff.2 ⟨a.resolvers, hresolvers, ?_⟩
    rw [← hnaming]
    rfl

lemma composed_of_mapM {order : List String} (hh : Hierarchy.ofInterfaces m.interfaces = .ok h)
    (hresolvers : order.mapM (Resolver.build settings h injectables) = .ok a.resolvers)
    (hnaming : a.naming = settings.naming) : Composed settings h injectables a := by
  refine ⟨(Hierarchy.ofInterfaces_eq_ok_iff.1 hh).2, ?_, hnaming⟩
  intro r hr
  obtain ⟨name, _, hname⟩ :=
    Traversal.exists_mem_of_forall₂ (Traversal.mapM_eq_ok_iff.1 hresolvers) hr
  rwa [(fields_of_build hname).1]

theorem exists_composed (hcompose : compose settings m = .ok a) :
    ∃ h injectables, Composed settings h injectables a := by
  obtain ⟨injectables, h, order, _, hh, _, hresolvers, hnaming⟩ := compose_eq_ok_iff.1 hcompose
  exact ⟨h, injectables, composed_of_mapM hh hresolvers hnaming⟩

/-- The hierarchy that the resolvers are built from is that of the declared interfaces. -/
lemma composed_of_ofInterfaces (hcompose : compose settings m = .ok a)
    (hh : Hierarchy.ofInterfaces m.interfaces = .ok h) :
    ∃ injectables, Composed settings h injectables a := by
  obtain ⟨injectables, h', order, _, hh', _, hresolvers, hnaming⟩ := compose_eq_ok_iff.1 hcompose
  rw [hh, Except.ok.injEq] at hh'
  subst hh'
  exact ⟨injectables, composed_of_mapM hh hresolvers hnaming⟩

namespace Composed

/-! ### What a resolver is built from -/

lemma build_graph (ha : a.Composed settings h injectables) (hr : r ∈ a.resolvers) :
    Graph.build settings (h.provideFunctions settings r.provider.name) injectables =
      .ok r.graph :=
  (fields_of_build (ha.build_eq r hr)).2.1

lemma wellLinked (ha : a.Composed settings h injectables) (hr : r ∈ a.resolvers) :
    r.graph.WellLinked :=
  Graph.wellLinked_of_build (ha.build_graph hr)

lemma naming_graph (ha : a.Composed settings h injectables) (hr : r ∈ a.resolvers) :
    r.graph.naming = a.naming := by
  rw [ha.naming_eq, Graph.naming_of_build (ha.build_graph hr)]

lemma parents_eq (ha : a.Composed settings h injectables) (hr : r ∈ a.resolvers) :
    r.parents = h.providerAncestors settings r.provider.name :=
  (fields_of_build (ha.build_eq r hr)).2.2

lemma parentsOf_subset (ha : a.Composed settings h injectables) (name : String) :
    a.parentsOf name ⊆ h.providerAncestors settings name := by
  intro parent hparent
  cases hfind : a.find? name with
  | none => simp [parentsOf, hfind] at hparent
  | some r =>
    have hname : r.provider.name = name := by simpa using List.find?_some hfind
    have hr : r ∈ a.resolvers := List.mem_of_find?_eq_some hfind
    rw [parentsOf, hfind, Option.map_some, Option.getD_some, ha.parents_eq hr, hname] at hparent
    exact hparent

/-! ### Inherited resolvers -/

lemma mem_providerAncestors_of_reached (ha : a.Composed settings h injectables)
    (hr : r ∈ a.resolvers) {fresh : List String} {name : String}
    (hname : Walk.Reached a.parentsOf fresh r.parents name) :
    name ∈ h.providerAncestors settings r.provider.name := by
  induction hname with
  | pending _ hpending =>
    rw [← ha.parents_eq hr]
    exact List.contains_iff_mem.1 hpending
  | next _ _ hnext ih =>
    have hparent := ha.parentsOf_subset _ (List.contains_iff_mem.1 hnext)
    exact Hierarchy.mem_providerAncestors_trans ih hparent

/-- A resolver inherits from the resolvers of the providers above its own. -/
theorem mem_transitiveParents_iff (ha : a.Composed settings h injectables)
    (hr : r ∈ a.resolvers) : p ∈ a.transitiveParents r ↔
      p ∈ a.resolvers ∧ p.provider.name ∈ h.providerAncestors settings r.provider.name := by
  rw [transitiveParents, List.mem_filter, List.contains_iff_mem, Walk.mem_walk_iff]
  apply and_congr_right
  intro hp
  constructor
  · exact ha.mem_providerAncestors_of_reached hr
  · intro habove
    have hfresh : p.provider.name ∈ a.resolvers.map (·.provider.name) :=
      List.mem_map.2 ⟨p, hp, rfl⟩
    refine .pending (List.contains_iff_mem.2 hfresh) (List.contains_iff_mem.2 ?_)
    rwa [ha.parents_eq hr]

/-- They stand in the order of the assembly. -/
lemma transitiveParents_eq_filter (ha : a.Composed settings h injectables)
    (hr : r ∈ a.resolvers) : a.transitiveParents r = a.resolvers.filter fun p =>
      (h.providerAncestors settings r.provider.name).contains p.provider.name := by
  rw [transitiveParents]
  apply List.filter_congr
  intro p hp
  have hmem := ha.mem_transitiveParents_iff hr (p := p)
  rw [transitiveParents, List.mem_filter] at hmem
  have habove : (h.providerAncestors settings r.provider.name).contains p.provider.name = true ↔
      p.provider.name ∈ h.providerAncestors settings r.provider.name := List.contains_iff_mem
  rw [Bool.eq_iff_iff, habove]
  exact ⟨fun h => (hmem.1 ⟨hp, h⟩).2, fun h => (hmem.2 ⟨hp, h⟩).2⟩

lemma mem_resolvers (ha : a.Composed settings h injectables) (hr : r ∈ a.resolvers)
    (hp : p ∈ a.transitiveParents r) : p ∈ a.resolvers :=
  ((ha.mem_transitiveParents_iff hr).1 hp).1

lemma mem_ancestors (ha : a.Composed settings h injectables) (hr : r ∈ a.resolvers)
    (hp : p ∈ a.transitiveParents r) : p.provider.name ∈ h.ancestors r.provider.name :=
  (Hierarchy.mem_providerAncestors_iff.1 ((ha.mem_transitiveParents_iff hr).1 hp).2).1

theorem transitiveParents_trans (ha : a.Composed settings h injectables) (hr : r ∈ a.resolvers)
    (hp : p ∈ a.transitiveParents r) (hq : q ∈ a.transitiveParents p) :
    q ∈ a.transitiveParents r := by
  have hp' := (ha.mem_transitiveParents_iff hr).1 hp
  have hq' := (ha.mem_transitiveParents_iff hp'.1).1 hq
  rw [ha.mem_transitiveParents_iff hr]
  exact ⟨hq'.1, Hierarchy.mem_providerAncestors_trans hp'.2 hq'.2⟩

/-- The resolver and those that it inherits from are resolvers of the assembly. -/
lemma mem_resolvers_of_cons (ha : a.Composed settings h injectables) (hr : r ∈ a.resolvers)
    (hp : p ∈ r :: a.transitiveParents r) : p ∈ a.resolvers := by
  rcases List.mem_cons.1 hp with rfl | hp
  · exact hr
  · exact ha.mem_resolvers hr hp

lemma cons_transitiveParents_subset (ha : a.Composed settings h injectables)
    (hr : r ∈ a.resolvers) (hp : p ∈ r :: a.transitiveParents r) :
    p :: a.transitiveParents p ⊆ r :: a.transitiveParents r := by
  intro q hq
  rcases List.mem_cons.1 hp with rfl | hp
  · exact hq
  · rcases List.mem_cons.1 hq with rfl | hq
    · exact List.mem_cons_of_mem _ hp
    · exact List.mem_cons_of_mem _ (ha.transitiveParents_trans hr hp hq)

/-- A resolver constructs every type that one it inherits from constructs. -/
theorem typeNames_subset (ha : a.Composed settings h injectables) (hr : r ∈ a.resolvers)
    (hp : p ∈ a.transitiveParents r) : p.graph.typeNames ⊆ r.graph.typeNames := by
  apply Graph.typeNames_subset_of_build (ha.build_graph (ha.mem_resolvers hr hp))
    (ha.build_graph hr)
  intro f hf
  exact Hierarchy.contains_provideFunctions_of_ancestor (ha.mem_ancestors hr hp) hf

/-- Among a resolver and those that it inherits from, there is a topmost one with a property that
the resolver has. -/
theorem exists_topmost (ha : a.Composed settings h injectables) (P : Resolver → Prop)
    (hr : r ∈ a.resolvers) (hP : P r) :
    ∃ p ∈ r :: a.transitiveParents r, P p ∧ ∀ q ∈ a.transitiveParents p, ¬ P q := by
  induction hlength : (reachable h.links r.provider.name).length using Nat.strongRecOn
    generalizing r with
  | _ length ih =>
    by_cases hnone : ∀ q ∈ a.transitiveParents r, ¬ P q
    · exact ⟨r, List.mem_cons_self, hP, hnone⟩
    · push Not at hnone
      obtain ⟨q, hq, hPq⟩ := hnone
      have hqr := ha.mem_resolvers hr hq
      have hlt := length_reachable_lt ha.not_cyclic
        (Hierarchy.mem_ancestors_iff.1 (ha.mem_ancestors hr hq))
      obtain ⟨p, hp, hPp, htop⟩ := ih _ (hlength ▸ hlt) hqr hPq rfl
      exact ⟨p, ha.cons_transitiveParents_subset hr (List.mem_cons_of_mem _ hq) hp, hPp, htop⟩

end Composed

end Assembly

end Wiring
