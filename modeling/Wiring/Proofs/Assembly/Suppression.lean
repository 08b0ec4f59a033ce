import Wiring.Proofs.Assembly.Inheritance
import Wiring.Proofs.Graph.Routines

/-!
# What inherited resolvers leave to declare

A resolver leaves out whatever the graph of an inherited resolver has, although that resolver may
itself leave it to one further up. Nothing gets lost on the way, because the topmost resolver whose
graph has it leaves it to nobody. Nothing is declared twice either (`declaresOnce`).
-/

namespace Wiring

open Sameness

namespace Assembly

variable {settings : Settings} {h : Hierarchy} {injectables : List Injectable}
variable {a : Assembly} {r p q : Resolver} {s : Signature} {t : String}

/-! ### What is left to declare -/

lemma mem_resolvableTypeNames_iff : t ∈ a.resolvableTypeNames r ↔ t ∈ r.graph.typeNames ∧
    ∀ q ∈ a.transitiveParents r,
      ¬ q.graph.allSignatures.contains (r.graph.resolveSignature t) = true := by
  rw [resolvableTypeNames, List.mem_filter]
  simp only [List.contains_iff_exists_mem_beq, List.mem_flatMap, Graph.allSignatures,
    Bool.not_eq_true', ← Bool.not_eq_true]
  apply and_congr_right
  intro _
  constructor
  · rintro hnone q hq ⟨s, hs, hts⟩
    exact hnone ⟨s, ⟨q, hq, hs⟩, hts⟩
  · rintro hnone ⟨s, ⟨q, hq, hs⟩, hts⟩
    exact hnone q hq ⟨s, hs, hts⟩

lemma mem_interceptableTypeNames_iff : t ∈ a.interceptableTypeNames r ↔ t ∈ r.graph.typeNames ∧
    ∀ q ∈ a.transitiveParents r, t ∉ q.graph.typeNames := by
  simp [interceptableTypeNames]

/-- A resolver declares a signature of its graph unless the graph of an inherited one has it. -/
lemma contains_resolveSignatures_iff : (a.resolveSignatures r).contains s = true ↔
    r.graph.allSignatures.contains s = true ∧
      ∀ q ∈ a.transitiveParents r, ¬ q.graph.allSignatures.contains s = true := by
  rw [Graph.contains_allSignatures_iff, List.contains_iff_exists_mem_beq, resolveSignatures]
  simp only [List.mem_map, mem_resolvableTypeNames_iff]
  constructor
  · rintro ⟨_, ⟨t, ⟨ht, hnone⟩, rfl⟩, hst⟩
    exact ⟨⟨t, ht, hst⟩, fun q hq hs => hnone q hq ((contains_congr hst).1 hs)⟩
  · rintro ⟨⟨t, ht, hst⟩, hnone⟩
    exact ⟨_, ⟨t, ⟨ht, fun q hq hs => hnone q hq ((contains_congr hst).2 hs)⟩, rfl⟩, hst⟩

/-- What is generated for a resolver depends on the assembly only by what it inherits. -/
theorem outline_congr {a' : Assembly} (hnaming : a.naming = a'.naming)
    (hparents : (a.transitiveParents r).Perm (a'.transitiveParents r))
    (hnames : a.inheritedResolverNames r = a'.inheritedResolverNames r) :
    a.outline r = a'.outline r := by
  have hresolvable : a.resolvableTypeNames r = a'.resolvableTypeNames r := by
    rw [resolvableTypeNames, resolvableTypeNames]
    apply List.filter_congr
    intro t _
    rw [(hparents.flatMap_right _).contains_eq]
  have hinterceptable : a.interceptableTypeNames r = a'.interceptableTypeNames r := by
    rw [interceptableTypeNames, interceptableTypeNames]
    apply List.filter_congr
    intro t _
    rw [(hparents.flatMap_right _).contains_eq]
  simp only [outline, nameOf, resolveSignatures, interceptSignatures, resolveRoutines,
    interceptRoutines, hnaming, hnames, hresolvable, hinterceptable]

/-- A resolver declares the intercept function of the type. -/
def Intercepts (a : Assembly) (r : Resolver) (t : String) : Prop :=
  ∃ s ∈ a.interceptSignatures r, s.name = a.naming.interceptFunction t

namespace Composed

lemma intercepts_iff (ha : a.Composed settings h injectables) (hr : r ∈ a.resolvers) :
    a.Intercepts r t ↔ t ∈ a.interceptableTypeNames r := by
  rw [Intercepts, interceptSignatures]
  simp only [List.mem_map, exists_exists_and_eq_and, Graph.interceptSignature, ha.naming_graph hr]
  constructor
  · rintro ⟨t', ht', hname⟩
    rwa [← Graph.interceptFunction_injective a.naming hname]
  · exact fun ht => ⟨t, ht, rfl⟩

/-! ### Nothing gets lost -/

/-- A signature of a resolver's graph is declared by the resolver or by one that it inherits
from. -/
theorem exists_contains_resolveSignatures (ha : a.Composed settings h injectables)
    (hr : r ∈ a.resolvers) (hs : r.graph.allSignatures.contains s = true) :
    ∃ p ∈ r :: a.transitiveParents r, (a.resolveSignatures p).contains s = true := by
  obtain ⟨p, hp, hps, htop⟩ :=
    ha.exists_topmost (fun p => p.graph.allSignatures.contains s = true) hr hs
  exact ⟨p, hp, contains_resolveSignatures_iff.2 ⟨hps, htop⟩⟩

/-- A type of a resolver's graph has its intercept function from the resolver or from one that it
inherits from. -/
theorem exists_intercepts (ha : a.Composed settings h injectables) (hr : r ∈ a.resolvers)
    (ht : t ∈ r.graph.typeNames) : ∃ p ∈ r :: a.transitiveParents r, a.Intercepts p t := by
  obtain ⟨p, hp, hpt, htop⟩ := ha.exists_topmost (fun p => t ∈ p.graph.typeNames) hr ht
  have hpr := ha.mem_resolvers_of_cons hr hp
  exact ⟨p, hp, (ha.intercepts_iff hpr).2 (mem_interceptableTypeNames_iff.2 ⟨hpt, htop⟩)⟩

end Composed

/-! ### Declarations and definitions -/

/-- The definitions of resolve functions stand in the order of their declarations. -/
lemma map_signature_resolveRoutines :
    (a.resolveRoutines r).map Routine.signature = a.resolveSignatures r := by
  apply Graph.map_signature_filterMap
  intro t ht
  exact (mem_resolvableTypeNames_iff.1 ht).1

lemma map_signature_interceptRoutines :
    (a.interceptRoutines r).map Routine.signature = a.interceptSignatures r := by
  rw [interceptRoutines, interceptSignatures, List.map_map]
  rfl

/-! ### Nothing is declared twice -/

lemma pairwise_resolveSignatures (hg : r.graph.WellLinked) :
    (a.resolveSignatures r).Pairwise fun s s' => (s == s') = false := by
  have hnodup : (a.resolvableTypeNames r).Nodup := hg.nodup_typeNames.filter _
  rw [resolveSignatures, List.pairwise_map]
  apply hnodup.imp
  intro t t' hne
  rw [← Bool.not_eq_true]
  intro hsame
  exact hne (Graph.eq_of_resolveSignature_beq hsame)

/-- How the declarations of a resolver and of those that it inherits from fit together. -/
structure DeclaresOnce (a : Assembly) (r : Resolver) : Prop where
  /-- Together they declare the resolve functions of all types of all their graphs. -/
  resolve_iff : ∀ s, (∃ p ∈ r :: a.transitiveParents r, (a.resolveSignatures p).contains s = true) ↔
    ∃ p ∈ r :: a.transitiveParents r, ∃ t ∈ p.graph.typeNames,
      (s == p.graph.resolveSignature t) = true
  resolve_new : ∀ s ∈ a.resolveSignatures r, ∀ p ∈ a.transitiveParents r,
    (a.resolveSignatures p).contains s = false
  resolve_distinct : (a.resolveSignatures r).Pairwise fun s s' => (s == s') = false
  /-- Together they declare the intercept functions of all types of the resolver's own graph. -/
  intercept_iff : ∀ t, (∃ p ∈ r :: a.transitiveParents r, a.Intercepts p t) ↔ t ∈ r.graph.typeNames
  intercept_new : ∀ t, a.Intercepts r t → ∀ p ∈ a.transitiveParents r, ¬ a.Intercepts p t
  /-- Declarations and definitions stand in the same order. -/
  resolve_routines : (a.resolveRoutines r).map Routine.signature = a.resolveSignatures r
  intercept_routines : (a.interceptRoutines r).map Routine.signature = a.interceptSignatures r

/-- Leaving to the inherited resolvers what their graphs have loses nothing and declares nothing
twice. -/
theorem declaresOnce {m : Manifest} (hcompose : compose settings m = .ok a)
    (hr : r ∈ a.resolvers) : a.DeclaresOnce r := by
  obtain ⟨h, injectables, ha⟩ := exists_composed hcompose
  constructor
  case resolve_iff =>
    intro s
    constructor
    · rintro ⟨p, hp, hs⟩
      exact ⟨p, hp, Graph.contains_allSignatures_iff.1 (contains_resolveSignatures_iff.1 hs).1⟩
    · rintro ⟨p, hp, hs⟩
      have hpr := ha.mem_resolvers_of_cons hr hp
      obtain ⟨q, hq, hqs⟩ :=
        ha.exists_contains_resolveSignatures hpr (Graph.contains_allSignatures_iff.2 hs)
      exact ⟨q, ha.cons_transitiveParents_subset hr hp hq, hqs⟩
  case resolve_new =>
    intro s hs p hp
    have hnone := (contains_resolveSignatures_iff.1 (contains_of_mem hs)).2 p hp
    rw [← Bool.not_eq_true]
    intro hps
    exact hnone (contains_resolveSignatures_iff.1 hps).1
  case resolve_distinct =>
    exact pairwise_resolveSignatures (ha.wellLinked hr)
  case intercept_iff =>
    intro t
    constructor
    · rintro ⟨p, hp, hpt⟩
      have hpt := (ha.intercepts_iff (ha.mem_resolvers_of_cons hr hp)).1 hpt
      have ht := (mem_interceptableTypeNames_iff.1 hpt).1
      rcases List.mem_cons.1 hp with rfl | hp
      · exact ht
      · exact ha.typeNames_subset hr hp ht
    · exact ha.exists_intercepts hr
  case intercept_new =>
    intro t hrt p hp hpt
    have hnone := mem_interceptableTypeNames_iff.1 ((ha.intercepts_iff hr).1 hrt)
    have ht := (ha.intercepts_iff (ha.mem_resolvers hr hp)).1 hpt
    exact hnone.2 p hp (mem_interceptableTypeNames_iff.1 ht).1
  case resolve_routines => exact map_signature_resolveRoutines
  case intercept_routines => exact map_signature_interceptRoutines

/-- Providers in the shape of a diamond, where the lowest one replaces a function by one that takes
something else. -/
def diamond : Manifest where
  interfaces :=
    [{ name := "Base", inherited := ["Provider"],
       functions := [{ name := "provideLog", returnTypeName := some "Log" }] },
      { name := "Left", inherited := ["Base"],
        functions := [{ name := "provideStore", arguments := [⟨"path", none, "String"⟩],
                        returnTypeName := some "Store" }] },
      { name := "Right", inherited := ["Base"] },
      { name := "Leaf", inherited := ["Left", "Right"],
        functions := [{ name := "provideStore", arguments := [⟨"size", none, "Int"⟩],
                        returnTypeName := some "any Store" }] }]
  types :=
    [{ kind := .classType, name := "App", inherited := ["Injectable"],
       functions := [{ name := "init",
                       arguments := [⟨"log", none, "Log"⟩, ⟨"store", none, "Store"⟩] }] }]

/-- A resolver of a run with the default settings that is found by evaluation. -/
lemma exists_resolver_of_any (m : Manifest) (p : Assembly → Resolver → Bool)
    (hfound : (compose {} m).toOption.any (fun a => a.resolvers.any (p a)) = true) :
    ∃ a r, compose {} m = .ok a ∧ r ∈ a.resolvers ∧ p a r = true := by
  cases hcompose : compose {} m with
  | error cause => simp [hcompose, Except.toOption] at hfound
  | ok a =>
    rw [hcompose] at hfound
    obtain ⟨r, hr, hfound⟩ := List.any_eq_true.1 hfound
    exact ⟨a, r, rfl, hr, hfound⟩

lemma exists_compose_diamond : ∃ a r, compose {} diamond = .ok a ∧ r ∈ a.resolvers ∧
    (a.transitiveParents r).map (·.provider.name) = ["Base", "Left", "Right"] ∧
    (a.resolveRoutines r).map (·.signature.name) = ["resolveApp", "resolveStore"] := by
  obtain ⟨a, r, hcompose, hr, hfound⟩ := exists_resolver_of_any diamond
    (fun a r => (a.transitiveParents r).map (·.provider.name) = ["Base", "Left", "Right"] ∧
      (a.resolveRoutines r).map (·.signature.name) = ["resolveApp", "resolveStore"])
    (by decide +kernel)
  exact ⟨a, r, hcompose, hr, of_decide_eq_true hfound⟩

/-- The lowest provider of the diamond declares its own variants of two resolve functions. -/
theorem declaresOnce_diamond : ∃ a r, compose {} diamond = .ok a ∧ r ∈ a.resolvers ∧
    (a.transitiveParents r).map (·.provider.name) = ["Base", "Left", "Right"] ∧
    a.DeclaresOnce r := by
  obtain ⟨a, r, hcompose, hr, hparents, _⟩ := exists_compose_diamond
  exact ⟨a, r, hcompose, hr, hparents, declaresOnce hcompose hr⟩

end Assembly

end Wiring
