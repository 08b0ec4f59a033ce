import Wiring.Proofs.Assembly.Suppression

/-!
# The seam between resolve and intercept functions

A resolve function hands its builder to the intercept function of its type. Resolve functions are
told apart by their signatures, but intercept functions only by the type that they are for. So a
resolve function that is declared anew, because it returns the type in another form, still calls the
intercept function of the form before (`interceptor_of_other_form`).

The two fit together as far as the graphs agree on what they return for the type
(`seam_of_mem_resolvableTypeNames`). They always agree on the types that the resolver itself builds
by their constructors, since no inherited resolver has a provide function for such a type.
-/

namespace Wiring

open Sameness

variable {settings : Settings} {h : Hierarchy} {injectables : List Injectable}

/-! ### What the functions of a type return -/

lemma Settings.constructs_congr {t : String} {f f' : Signature} (hff' : (f == f') = true) :
    settings.constructs t f = settings.constructs t f' := by
  obtain ⟨_, _, _, hreturned⟩ := signature_beq_iff.1 hff'
  rw [Settings.constructs, Settings.constructs, hreturned]

namespace Graph

variable {functions : List Signature} {g g' : Graph} {t : String} {n : Node} {f : Signature}

lemma returnTypeName_of_injected (hn : g.node? t = some n) (hkind : n.kind = .injected) :
    g.returnTypeName t = t := by
  simp [returnTypeName, hn, Node.returnTypeName, hkind, typeName_of_node? hn]

/-- A type has a provided node just if one of the provide functions is for it. -/
lemma provided_iff_of_build (hg : build settings functions injectables = .ok g)
    (hn : g.node? t = some n) :
    n.kind = .provided ↔ ∃ f ∈ functions, settings.constructs t f = true := by
  rcases origin_cases hg hn with ⟨f, hf, hkind, _⟩ | ⟨hnone, _, _, hkind, _⟩
  · exact ⟨fun _ => ⟨f, List.mem_filter.1 (List.mem_of_getLast? hf)⟩, fun _ => hkind⟩
  · constructor
    · intro hprovided
      simp [hkind] at hprovided
    · rintro ⟨f, hf, hconstructs⟩
      exact absurd hconstructs (List.filter_eq_nil_iff.1 hnone f hf)

/-- Intercept functions of a type are the same just if they return the same. -/
lemma interceptSignature_beq_iff (hnaming : g.naming = g'.naming) :
    (g.interceptSignature t == g'.interceptSignature t) = true ↔
      g.returnTypeName t = g'.returnTypeName t := by
  rw [signature_beq_iff]
  constructor
  · rintro ⟨_, _, _, hreturned⟩
    exact Option.some.inj hreturned
  · intro hreturned
    simp [interceptSignature, hnaming, hreturned]

end Graph

namespace Assembly

variable {a : Assembly} {r p : Resolver} {t : String} {m : Manifest}

/-- What a resolver builds by its constructor is returned in the same form by all that it inherits
from. -/
lemma Composed.returnTypeName_eq_of_injected (ha : a.Composed settings h injectables)
    (hr : r ∈ a.resolvers) (hp : p ∈ a.transitiveParents r) (ht : t ∈ p.graph.typeNames) {n : Node}
    (hn : r.graph.node? t = some n) (hkind : n.kind = .injected) :
    p.graph.returnTypeName t = r.graph.returnTypeName t := by
  obtain ⟨n', hn'⟩ := Graph.mem_typeNames_iff.1 ht
  have hgp := ha.build_graph (ha.mem_resolvers hr hp)
  have hkind' : n'.kind = .injected := by
    cases hcases : n'.kind with
    | injected => rfl
    | parameter => exact absurd hcases (Graph.kind_ne_parameter_of_build hgp hn')
    | provided =>
      -- a provide function of the inherited resolver would be one of the resolver itself
      obtain ⟨f, hf, hconstructs⟩ := (Graph.provided_iff_of_build hgp hn').1 hcases
      have hcontains :=
        Hierarchy.contains_provideFunctions_of_ancestor (ha.mem_ancestors hr hp) hf
      obtain ⟨f', hf', hff'⟩ := List.contains_iff_exists_mem_beq.1 hcontains
      rw [Settings.constructs_congr hff'] at hconstructs
      have hprovided :=
        (Graph.provided_iff_of_build (ha.build_graph hr) hn).2 ⟨f', hf', hconstructs⟩
      rw [hkind] at hprovided
      cases hprovided
  rw [Graph.returnTypeName_of_injected hn hkind, Graph.returnTypeName_of_injected hn' hkind']

/-! ### The seam -/

section Forms

variable (ha : a.Composed settings h injectables) (hr : r ∈ a.resolvers)
include ha hr

lemma eq_interceptSignature_of_name {s : Signature} (hs : s ∈ a.interceptSignatures r)
    (hname : s.name = a.naming.interceptFunction t) : s = r.graph.interceptSignature t := by
  obtain ⟨t', _, rfl⟩ := List.mem_map.1 hs
  rw [Graph.interceptSignature, ha.naming_graph hr] at hname
  rw [Graph.interceptFunction_injective a.naming hname]

/-- One resolver declares an intercept function in the form of another one's graph just if it
declares it at all and both graphs return the same. -/
lemma contains_interceptSignatures_iff (hp : p ∈ a.resolvers) :
    (a.interceptSignatures p).contains (r.graph.interceptSignature t) = true ↔
      a.Intercepts p t ∧ p.graph.returnTypeName t = r.graph.returnTypeName t := by
  have hnaming : r.graph.naming = p.graph.naming := by
    rw [ha.naming_graph hr, ha.naming_graph hp]
  rw [List.contains_iff_exists_mem_beq]
  constructor
  · rintro ⟨s, hs, hsame⟩
    have hname : s.name = a.naming.interceptFunction t := by
      rw [← (signature_beq_iff.1 hsame).2.1, Graph.interceptSignature, ha.naming_graph hr]
    rw [eq_interceptSignature_of_name ha hp hs hname,
      Graph.interceptSignature_beq_iff hnaming] at hsame
    exact ⟨⟨s, hs, hname⟩, hsame.symm⟩
  · rintro ⟨⟨s, hs, hname⟩, hreturned⟩
    refine ⟨s, hs, ?_⟩
    rw [eq_interceptSignature_of_name ha hp hs hname, Graph.interceptSignature_beq_iff hnaming]
    exact hreturned.symm

end Forms

/-- How the resolve function that a resolver declares for a type fits the intercept function that
it calls. -/
structure Seam (a : Assembly) (r : Resolver) (t : String) : Prop where
  called : ∃ routine ∈ a.resolveRoutines r, routine.signature = r.graph.resolveSignature t ∧
    ∃ builder, routine.body = .intercept (a.naming.interceptFunction t) builder .done
  declared : ∃ p ∈ r :: a.transitiveParents r, a.Intercepts p t
  /-- Whoever declares the intercept function does so in the form of its own graph. -/
  form_eq : ∀ p ∈ r :: a.transitiveParents r, ∀ s ∈ a.interceptSignatures p,
    s.name = a.naming.interceptFunction t → s = p.graph.interceptSignature t
  /-- That is the form of the resolver's own graph just if both return the same. -/
  fits_iff : ∀ p ∈ r :: a.transitiveParents r,
    (a.interceptSignatures p).contains (r.graph.interceptSignature t) = true ↔
      a.Intercepts p t ∧ p.graph.returnTypeName t = r.graph.returnTypeName t
  /-- It is for a type that the resolver builds by its constructor. -/
  fits_of_injected : (r.graph.node? t).map Node.kind = some .injected →
    ∀ p ∈ r :: a.transitiveParents r, a.Intercepts p t →
      (a.interceptSignatures p).contains (r.graph.interceptSignature t) = true

/-- The intercept function that a declared resolve function calls is declared as well, and the two
fit together as far as the graphs agree on what is returned. -/
theorem seam_of_mem_resolvableTypeNames (hcompose : compose settings m = .ok a)
    (hr : r ∈ a.resolvers) (ht : t ∈ a.resolvableTypeNames r) : a.Seam r t := by
  obtain ⟨h, injectables, ha⟩ := exists_composed hcompose
  have htypes : t ∈ r.graph.typeNames := (mem_resolvableTypeNames_iff.1 ht).1
  have hfits : ∀ p ∈ r :: a.transitiveParents r,
      (a.interceptSignatures p).contains (r.graph.interceptSignature t) = true ↔
        a.Intercepts p t ∧ p.graph.returnTypeName t = r.graph.returnTypeName t :=
    fun p hp => contains_interceptSignatures_iff ha hr (ha.mem_resolvers_of_cons hr hp)
  constructor
  case called =>
    obtain ⟨n, hn⟩ := Graph.mem_typeNames_iff.1 htypes
    refine ⟨_, List.mem_filterMap.2 ⟨t, ht, Graph.resolveRoutine?_of_node? hn⟩, rfl, ?_⟩
    rw [ha.naming_graph hr]
    exact ⟨_, rfl⟩
  case declared => exact ha.exists_intercepts hr htypes
  case form_eq =>
    intro p hp s hs
    exact eq_interceptSignature_of_name ha (ha.mem_resolvers_of_cons hr hp) hs
  case fits_iff => exact hfits
  case fits_of_injected =>
    intro hinjected p hp hintercepts
    obtain ⟨n, hn, hkind⟩ := Option.map_eq_some_iff.1 hinjected
    refine (hfits p hp).2 ⟨hintercepts, ?_⟩
    have hpr := ha.mem_resolvers_of_cons hr hp
    have htp := (mem_interceptableTypeNames_iff.1 ((ha.intercepts_iff hpr).1 hintercepts)).1
    rcases List.mem_cons.1 hp with rfl | hp
    · rfl
    · exact ha.returnTypeName_eq_of_injected hr hp htp hn hkind

/-- In the diamond the lowest provider declares a resolve function anew whose intercept function
stays with the topmost one. -/
theorem seam_diamond : ∃ a r, compose {} diamond = .ok a ∧ r ∈ a.resolvers ∧
    "App" ∈ a.resolvableTypeNames r ∧ "App" ∉ a.interceptableTypeNames r ∧ a.Seam r "App" := by
  obtain ⟨a, r, hcompose, hr, hfound⟩ := exists_resolver_of_any diamond
    (fun a r => "App" ∈ a.resolvableTypeNames r ∧ "App" ∉ a.interceptableTypeNames r)
    (by decide +kernel)
  obtain ⟨ht, hinherited⟩ := of_decide_eq_true hfound
  exact ⟨a, r, hcompose, hr, ht, hinherited, seam_of_mem_resolvableTypeNames hcompose hr ht⟩

/-- A provider that provides in another form what the one above it builds by a constructor. -/
def otherForm : Manifest where
  interfaces :=
    [{ name := "Base", inherited := ["Provider"] },
      { name := "Leaf", inherited := ["Base"],
        functions := [{ name := "provideStore", returnTypeName := some "any Store" }] }]
  types :=
    [{ kind := .classType, name := "Store", inherited := ["Injectable"],
       functions := [{ name := "init" }] }]

/-- A resolver can declare a resolve function whose intercept function nobody declares in the form
of the resolver's graph. -/
theorem interceptor_of_other_form : ∃ a r t, compose {} otherForm = .ok a ∧ r ∈ a.resolvers ∧
    t ∈ a.resolvableTypeNames r ∧ ∀ p ∈ r :: a.transitiveParents r,
      (a.interceptSignatures p).contains (r.graph.interceptSignature t) = false := by
  obtain ⟨a, r, hcompose, hr, hfound⟩ := exists_resolver_of_any otherForm
    (fun a r => "Store" ∈ a.resolvableTypeNames r ∧ ∀ p ∈ r :: a.transitiveParents r,
      (a.interceptSignatures p).contains (r.graph.interceptSignature "Store") = false)
    (by decide +kernel)
  obtain ⟨ht, hnone⟩ := of_decide_eq_true hfound
  exact ⟨a, r, "Store", hcompose, hr, ht, hnone⟩

end Assembly

end Wiring
