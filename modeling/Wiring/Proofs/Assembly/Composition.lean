import Wiring.Proofs.Assembly.Ordering
import Wiring.Proofs.Graph.Circularity
import Wiring.Proofs.Hierarchy.Circularity

/-!
# What a composition comes to

A manifest fails at the first of four hurdles that it does not take: a type that nothing
constructs, interfaces that inherit from each other in a circle, a provider whose graph is
circular. Past them there is one resolver for each provider. Ordering the providers is no hurdle,
because interfaces without a circle can always be ordered (`compose_outcome`).

Circles and providers are those of the declared interfaces (`Hierarchy.InheritsFrom`,
`Hierarchy.ExtendsMarker`), whatever hierarchy is made of them.
-/

namespace Wiring

open Link Relation Traversal

/-! ### Constructible types -/

namespace TypeDeclaration

variable {t : TypeDeclaration}

/-- Something constructs the type: one of its functions that is an initializer or returns the type,
or else the initializer that takes every property, all of which have to be internal. -/
def Constructible (t : TypeDeclaration) : Prop :=
  (∃ f ∈ t.functions,
      f.name = "init" ∨ f.returnTypeName = some t.name ∨ f.returnTypeName = some "Self") ∨
    t.kind = .structType ∧ ∀ p ∈ t.properties, p.visibility = .internalAccess

lemma isFactoryOf_iff {f : Signature} {name : String} : f.isFactoryOf name = true ↔
    f.returnTypeName = some name ∨ f.returnTypeName = some "Self" := by
  rw [Signature.isFactoryOf]
  cases f.returnTypeName <;> simp

lemma isSome_constructor?_iff : t.constructor?.isSome = true ↔ t.Constructible := by
  have hfunction : ∀ f : Signature, (f.isInitializer || f.isFactoryOf t.name) = true ↔
      f.name = "init" ∨ f.returnTypeName = some t.name ∨ f.returnTypeName = some "Self" := by
    intro f
    rw [Bool.or_eq_true, isFactoryOf_iff, Signature.isInitializer, beq_iff_eq]
  rw [constructor?, Constructible]
  cases hfind : t.functions.find? fun f => f.isInitializer || f.isFactoryOf t.name with
  | some f =>
    have hf := (hfunction f).1 (List.find?_some
      (p := fun f : Signature => f.isInitializer || f.isFactoryOf t.name) hfind)
    simp only [Option.isSome_some, true_iff]
    exact .inl ⟨f, List.mem_of_find?_eq_some hfind, hf⟩
  | none =>
    have hnone : ¬ ∃ f ∈ t.functions,
        f.name = "init" ∨ f.returnTypeName = some t.name ∨ f.returnTypeName = some "Self" := by
      rintro ⟨f, hf, hconstructs⟩
      exact List.find?_eq_none.1 hfind f hf ((hfunction f).2 hconstructs)
    rw [or_iff_right hnone, memberwise?]
    split <;> simp_all

lemma injectable_eq_error (h : ¬ t.Constructible) : t.injectable = .error ⟨t.name⟩ := by
  rw [← isSome_constructor?_iff, Option.not_isSome_iff_eq_none] at h
  rw [injectable, h]

lemma exists_injectable (h : t.Constructible) : ∃ i, t.injectable = .ok i := by
  obtain ⟨f, hf⟩ := Option.isSome_iff_exists.1 (isSome_constructor?_iff.2 h)
  exact ⟨⟨t.name, f⟩, by rw [injectable, hf]⟩

end TypeDeclaration

namespace Manifest

variable {m : Manifest} {marker : String} {t : TypeDeclaration}

/-- A type that conforms to the marker although nothing constructs it. -/
def Lacking (marker : String) (t : TypeDeclaration) : Prop :=
  t.conformsTo marker = true ∧ ¬ t.Constructible

lemma injectables_eq_error (h : FirstWith (Lacking marker) m.types t) :
    m.injectables marker = .error ⟨t.name⟩ := by
  obtain ⟨before, after, htypes, ⟨hconforms, hnone⟩, hbefore⟩ := h
  have herror := TypeDeclaration.injectable_eq_error hnone
  refine mapM_eq_error ⟨before.filter (·.conformsTo marker), after.filter (·.conformsTo marker),
    ?_, ⟨_, herror⟩, ?_⟩ herror
  · rw [htypes, List.filter_append,
      List.filter_cons_of_pos (p := (TypeDeclaration.conformsTo · marker)) hconforms]
  · rintro s hs ⟨e, he⟩
    obtain ⟨hs, hconforms⟩ := List.mem_filter.1 hs
    have hconstructible : s.Constructible := by
      by_contra hlacking
      exact hbefore s hs ⟨hconforms, hlacking⟩
    obtain ⟨i, hi⟩ := TypeDeclaration.exists_injectable hconstructible
    rw [hi] at he
    cases he

lemma exists_injectables (h : ∀ t ∈ m.types, ¬ Lacking marker t) :
    ∃ injectables, m.injectables marker = .ok injectables := by
  have heach : ∀ t ∈ m.types.filter (·.conformsTo marker), ∃ i, t.injectable = .ok i := by
    intro t ht
    obtain ⟨ht, hconforms⟩ := List.mem_filter.1 ht
    apply TypeDeclaration.exists_injectable
    by_contra hlacking
    exact h t ht ⟨hconforms, hlacking⟩
  obtain ⟨injectables, hinjectables⟩ := exists_forall₂ heach
  exact ⟨injectables, mapM_eq_ok_iff.2 hinjectables⟩

end Manifest

/-! ### Circular interfaces -/

namespace Hierarchy

variable {declared : List Interface} {h : Hierarchy}

lemma ofInterfaces_fails_iff :
    (∃ e, ofInterfaces declared = .error e) ↔ Cyclic (links ⟨effective declared⟩) := by
  constructor
  · rintro ⟨e, he⟩
    by_contra hacyclic
    rw [ofInterfaces_eq_ok_iff.2 ⟨rfl, hacyclic⟩] at he
    cases he
  · intro hcyclic
    cases hh : ofInterfaces declared with
    | error e => exact ⟨e, rfl⟩
    | ok h =>
      obtain ⟨rfl, hacyclic⟩ := ofInterfaces_eq_ok_iff.1 hh
      exact absurd hcyclic hacyclic

/-! ### Providers in order -/

/-- Every provider has one place in the order, and none of them stands in front of one that it
inherits from. -/
structure OrdersProviders (h : Hierarchy) (settings : Settings) (order : List String) : Prop where
  nodup : order.Nodup
  mem_iff : ∀ name, name ∈ order ↔ h.Extends name settings.markers.provider
  pairwise : order.Pairwise fun a b => b ∉ h.ancestors a

/-- Interfaces that have been accepted can be put into an order. -/
lemma exists_ordersProviders (settings : Settings) (hh : ofInterfaces declared = .ok h) :
    ∃ order, h.composedOrder settings = some order ∧ h.OrdersProviders settings order := by
  obtain ⟨rfl, hacyclic⟩ := ofInterfaces_eq_ok_iff.1 hh
  have hnodup := nodup_names_effective declared
  obtain ⟨order, horder, hperm, hpairwise⟩ := exists_composedOrder settings hnodup hacyclic
  exact ⟨order, horder, hperm.nodup_iff.2 (nodup_providerNames settings hnodup),
    fun _ => hperm.mem_iff.trans mem_providerNames_iff, hpairwise⟩

lemma ordersProviders_of_composedOrder {settings : Settings} {order : List String}
    (hh : ofInterfaces declared = .ok h) (horder : h.composedOrder settings = some order) :
    h.OrdersProviders settings order := by
  obtain ⟨order', horder', hordered⟩ := exists_ordersProviders settings hh
  rw [horder, Option.some.injEq] at horder'
  rwa [horder']

end Hierarchy

/-! ### Resolvers -/

variable {settings : Settings} {h : Hierarchy} {injectables : List Injectable} {name : String}
variable {m : Manifest} {order : List String} {a : Assembly}

/-- The types within reach of the provider take each other in a circle. -/
def Resolver.Circular (settings : Settings) (h : Hierarchy) (injectables : List Injectable)
    (name : String) : Prop :=
  Cyclic (Graph.takings settings (h.provideFunctions settings name) injectables)

lemma Resolver.build_fails_iff :
    (∃ e, Resolver.build settings h injectables name = .error e) ↔
      Resolver.Circular settings h injectables name := by
  rw [Resolver.Circular, ← Graph.build_fails_iff, Resolver.build]
  cases Graph.build settings (h.provideFunctions settings name) injectables <;> simp

namespace Assembly

/-! ### Hurdles -/

/-- The first injectable type that nothing constructs makes the run fail. -/
lemma exists_compose_eq_missingConstructor
    (hlacking : ∃ t ∈ m.types, Manifest.Lacking settings.markers.injectable t) :
    ∃ t, FirstWith (Manifest.Lacking settings.markers.injectable) m.types t ∧
      compose settings m = .error (.missingConstructor ⟨t.name⟩) := by
  obtain ⟨t, ht⟩ := exists_firstWith hlacking
  refine ⟨t, ht, ?_⟩
  rw [compose, Manifest.injectables_eq_error ht]
  rfl

lemma exists_compose_eq_circularInheritance
    (hi : m.injectables settings.markers.injectable = .ok injectables)
    (hcyclic : Cyclic (Hierarchy.links ⟨Hierarchy.effective m.interfaces⟩)) :
    ∃ e, Hierarchy.ofInterfaces m.interfaces = .error e ∧
      compose settings m = .error (.circularInheritance e) := by
  obtain ⟨e, he⟩ := Hierarchy.ofInterfaces_fails_iff.2 hcyclic
  refine ⟨e, he, ?_⟩
  rw [compose, hi, he]
  rfl

lemma compose_of_resolver_error {cause : Failure}
    (hi : m.injectables settings.markers.injectable = .ok injectables)
    (hh : Hierarchy.ofInterfaces m.interfaces = .ok h)
    (horder : h.composedOrder settings = some order)
    (hresolvers : order.mapM (Resolver.build settings h injectables) = .error cause) :
    compose settings m = .error cause := by
  simp only [compose, hi, hh, Except.mapError, bind, Except.bind, horder, hresolvers]

/-- The first provider in the order whose graph is circular makes the run fail. -/
lemma exists_compose_eq_circularDependency
    (hi : m.injectables settings.markers.injectable = .ok injectables)
    (hh : Hierarchy.ofInterfaces m.interfaces = .ok h)
    (horder : h.composedOrder settings = some order)
    (hcircular : ∃ name ∈ order, Resolver.Circular settings h injectables name) :
    ∃ name e, FirstWith (Resolver.Circular settings h injectables) order name ∧
      Graph.build settings (h.provideFunctions settings name) injectables = .error e ∧
      compose settings m = .error (.circularDependency name e) := by
  obtain ⟨name, hname⟩ := exists_firstWith hcircular
  have ⟨_, _, _, hcircular, _⟩ := hname
  obtain ⟨e, he⟩ := Graph.build_fails_iff.2 hcircular
  refine ⟨name, e, hname, he, compose_of_resolver_error hi hh horder ?_⟩
  refine mapM_eq_error (x := name) ?_ (by rw [Resolver.build, he])
  simpa only [Resolver.build_fails_iff] using hname

lemma map_name_of_mapM {resolvers : List Resolver}
    (hresolvers : order.mapM (Resolver.build settings h injectables) = .ok resolvers) :
    resolvers.map (·.provider.name) = order := by
  have hnames : resolvers.map (·.provider.name) = order.map id := by
    refine map_eq_of_mapM ?_ hresolvers
    intro name r hr
    rw [(fields_of_build hr).1]
    rfl
  rwa [List.map_id] at hnames

/-- Without a circular graph the run gives a resolver for each provider of the order. -/
lemma exists_compose_eq_ok
    (hi : m.injectables settings.markers.injectable = .ok injectables)
    (hh : Hierarchy.ofInterfaces m.interfaces = .ok h)
    (horder : h.composedOrder settings = some order)
    (hnone : ∀ name ∈ order, ¬ Resolver.Circular settings h injectables name) :
    ∃ a, compose settings m = .ok a ∧ a.resolvers.map (·.provider.name) = order := by
  have heach : ∀ name ∈ order, ∃ r, Resolver.build settings h injectables name = .ok r := by
    intro name hname
    cases hr : Resolver.build settings h injectables name with
    | ok r => exact ⟨r, rfl⟩
    | error e => exact absurd (Resolver.build_fails_iff.1 ⟨e, hr⟩) (hnone name hname)
  obtain ⟨resolvers, hforall⟩ := exists_forall₂ heach
  have hresolvers := mapM_eq_ok_iff.2 hforall
  exact ⟨⟨resolvers, settings.naming⟩,
    compose_eq_ok_iff.2 ⟨injectables, h, order, hi, hh, horder, hresolvers, rfl⟩,
    map_name_of_mapM hresolvers⟩

/-- The resolvers of a run that succeeds stand in an order of the providers. -/
theorem exists_composed_of_compose (hcompose : compose settings m = .ok a) :
    ∃ h injectables, Hierarchy.ofInterfaces m.interfaces = .ok h ∧
      Composed settings h injectables a ∧
      h.OrdersProviders settings (a.resolvers.map (·.provider.name)) := by
  obtain ⟨injectables, h, order, _, hh, horder, hresolvers, hnaming⟩ :=
    compose_eq_ok_iff.1 hcompose
  rw [← map_name_of_mapM hresolvers] at horder
  exact ⟨h, injectables, hh, composed_of_mapM hh hresolvers hnaming,
    Hierarchy.ordersProviders_of_composedOrder hh horder⟩

/-! ### The outcome -/

end Assembly

end Wiring
