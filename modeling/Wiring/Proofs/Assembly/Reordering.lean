import Wiring.Proofs.Assembly.Agreement
import Wiring.Proofs.Assembly.DeclarationOrder
import Wiring.Proofs.Assembly.Suppression
import Wiring.Proofs.Graph.Reordering

/-!
# Declarations in another order

What a run comes to does not depend on the order of the declarations, as long as interfaces have
different names, and injectable types have too (`Assembly.sameOutcome_of_reordered`). Everything is
looked up by its name, and what is listed stands in ascending order of names or as a single
declaration lists it. Only the resolvers follow the order of the interfaces, and which one of
several errors of the same kind is reported depends on the order as well.
-/

namespace Wiring

open Link

variable {settings : Settings} {h h' : Hierarchy} {injectables injectables' : List Injectable}
variable {name marker : String}

/-! ### Interfaces in another order -/

namespace Hierarchy

lemma effective_of_nodup {declared : List Interface}
    (hnodup : (declared.map Interface.name).Nodup) : effective declared = declared := by
  induction declared using List.reverseRecOn with
  | nil => rfl
  | append_singleton declared i ih =>
    rw [List.map_append, List.nodup_append] at hnodup
    obtain ⟨hnodup, _, hnew⟩ := hnodup
    rw [effective_append_of_new fun hi => hnew _ hi _ List.mem_cons_self rfl, ih hnodup]

/-- The hierarchies have the same interfaces, perhaps in another order. -/
structure SameInterfaces (h h' : Hierarchy) : Prop where
  perm : h.interfaces.Perm h'.interfaces
  nodup : h.names.Nodup

namespace SameInterfaces

variable (hsame : h.SameInterfaces h')
include hsame

lemma agreeOn : AgreeOn (fun _ => True) h h' where
  find?_eq := fun name _ => Sameness.find?_key_perm hsame.perm hsame.nodup name
  closed := fun _ _ _ _ => trivial

/-- The links are laid in the same order. -/
lemma links_eq : h.links = h'.links := by
  have hnames : Names.sorted h.names = Names.sorted h'.names :=
    Names.sorted_congr fun _ => (hsame.perm.map Interface.name).mem_iff
  have hparents : h.parents = h'.parents := funext fun _ => hsame.agreeOn.parents_eq trivial
  rw [links, links, hnames, hparents]

end SameInterfaces

/-- Two orders of the same providers have the same members. -/
lemma OrdersProviders.perm (hsame : h.SameInterfaces h') {order order' : List String}
    (horder : h.OrdersProviders settings order) (horder' : h'.OrdersProviders settings order') :
    order.Perm order' := by
  rw [List.perm_ext_iff_of_nodup horder.nodup horder'.nodup]
  intro name
  rw [horder.mem_iff, horder'.mem_iff, ← inherits_iff, ← inherits_iff,
    hsame.agreeOn.inherits_eq trivial]

end Hierarchy

lemma Resolver.build_eq_of_perm (settings : Settings) (hsame : h.SameInterfaces h')
    (hperm : injectables.Perm injectables')
    (hnodup : (injectables.map Injectable.typeName).Nodup) :
    Resolver.build settings h injectables = Resolver.build settings h' injectables' := by
  funext name
  rw [Resolver.build_eq_of_agreeOn hsame.agreeOn settings injectables trivial, Resolver.build,
    Resolver.build, Graph.build_perm settings _ hperm hnodup]

lemma Resolver.circular_iff_of_perm (hsame : h.SameInterfaces h')
    (hperm : injectables.Perm injectables')
    (hnodup : (injectables.map Injectable.typeName).Nodup) :
    Resolver.Circular settings h injectables name ↔
      Resolver.Circular settings h' injectables' name := by
  rw [← Resolver.build_fails_iff, ← Resolver.build_fails_iff,
    Resolver.build_eq_of_perm settings hsame hperm hnodup]

/-! ### Resolvers in another order -/

namespace Assembly

variable {a a' : Assembly} {r : Resolver}

/-- The assemblies have the same resolvers, perhaps in another order. -/
structure SameResolvers (a a' : Assembly) : Prop where
  perm : a.resolvers.Perm a'.resolvers
  nodup : (a.resolvers.map (·.provider.name)).Nodup
  naming_eq : a.naming = a'.naming

namespace SameResolvers

variable (hsame : a.SameResolvers a')
include hsame

lemma find?_eq (name : String) : a.find? name = a'.find? name :=
  Sameness.find?_key_perm hsame.perm hsame.nodup name

lemma perm_transitiveParents (r : Resolver) :
    (a.transitiveParents r).Perm (a'.transitiveParents r) := by
  have hparents : a.parentsOf = a'.parentsOf := by
    funext name
    rw [parentsOf, parentsOf, hsame.find?_eq]
  have hwalk : walk a.parentsOf (a.resolvers.map (·.provider.name)) r.parents =
      walk a'.parentsOf (a'.resolvers.map (·.provider.name)) r.parents := by
    rw [hparents, Walk.walk_congr fun _ => (hsame.perm.map _).contains_eq]
  rw [transitiveParents, transitiveParents, hwalk]
  exact hsame.perm.filter _

lemma inheritedResolverNames_eq (r : Resolver) :
    a.inheritedResolverNames r = a'.inheritedResolverNames r := by
  simp only [inheritedResolverNames, hsame.find?_eq, hsame.naming_eq]

/-- Nothing that is generated for a resolver depends on where it stands. -/
theorem outline_eq : a.outline = a'.outline := by
  funext r
  exact outline_congr hsame.naming_eq (hsame.perm_transitiveParents r)
    (hsame.inheritedResolverNames_eq r)

end SameResolvers

end Assembly

/-! ### Manifests in another order -/

namespace Manifest

variable {m m' : Manifest}

lemma map_typeName_of_injectables (hi : m.injectables marker = .ok injectables) :
    injectables.map Injectable.typeName =
      (m.types.filter (·.conformsTo marker)).map TypeDeclaration.name := by
  refine Traversal.map_eq_of_mapM ?_ hi
  intro t i ht
  rw [TypeDeclaration.injectable] at ht
  split at ht
  · cases ht
    rfl
  · cases ht

/-- The manifests declare the same, perhaps in another order, with different names where
declarations are looked up by them. -/
structure Reordered (settings : Settings) (m m' : Manifest) : Prop where
  perm_imports : m.imports.Perm m'.imports
  perm_interfaces : m.interfaces.Perm m'.interfaces
  perm_types : m.types.Perm m'.types
  nodup_interfaces : (m.interfaces.map Interface.name).Nodup
  nodup_injectables : ((m.types.filter (·.conformsTo settings.markers.injectable)).map
    TypeDeclaration.name).Nodup

namespace Reordered

variable (hreordered : m.Reordered settings m')
include hreordered

lemma exists_lacking (hlacking : ∃ t ∈ m.types, Lacking marker t) :
    ∃ t ∈ m'.types, Lacking marker t := by
  obtain ⟨t, ht, hlacking⟩ := hlacking
  exact ⟨t, hreordered.perm_types.mem_iff.1 ht, hlacking⟩

lemma exists_injectables (hi : m.injectables settings.markers.injectable = .ok injectables) :
    ∃ injectables', m'.injectables settings.markers.injectable = .ok injectables' ∧
      injectables.Perm injectables' ∧ (injectables.map Injectable.typeName).Nodup := by
  obtain ⟨injectables', hi', hperm⟩ :=
    Traversal.exists_mapM_of_perm (hreordered.perm_types.filter _) hi
  refine ⟨injectables', hi', hperm, ?_⟩
  rw [map_typeName_of_injectables hi]
  exact hreordered.nodup_injectables

lemma sameInterfaces : Hierarchy.SameInterfaces ⟨Hierarchy.effective m.interfaces⟩
    ⟨Hierarchy.effective m'.interfaces⟩ := by
  have hnodup := hreordered.nodup_interfaces
  have hnodup' := (hreordered.perm_interfaces.map Interface.name).nodup_iff.1 hnodup
  rw [Hierarchy.effective_of_nodup hnodup, Hierarchy.effective_of_nodup hnodup']
  exact ⟨hreordered.perm_interfaces, hnodup⟩

lemma exists_ofInterfaces (hh : Hierarchy.ofInterfaces m.interfaces = .ok h) :
    ∃ h', Hierarchy.ofInterfaces m'.interfaces = .ok h' ∧ h.SameInterfaces h' := by
  obtain ⟨rfl, hacyclic⟩ := Hierarchy.ofInterfaces_eq_ok_iff.1 hh
  rw [hreordered.sameInterfaces.links_eq] at hacyclic
  exact ⟨_, Hierarchy.ofInterfaces_eq_ok_iff.2 ⟨rfl, hacyclic⟩, hreordered.sameInterfaces⟩

/-- The same link is the first one that closes a circle. -/
lemma ofInterfaces_eq_error {e : CircularInheritance}
    (he : Hierarchy.ofInterfaces m.interfaces = .error e) :
    Hierarchy.ofInterfaces m'.interfaces = .error e := by
  rw [Hierarchy.ofInterfaces, hreordered.sameInterfaces.links_eq] at he
  rw [Hierarchy.ofInterfaces]
  split at he
  · next hfirst => simpa [hfirst] using he
  · cases he

end Reordered

end Manifest

namespace Assembly

variable {m m' : Manifest} {a : Assembly}

lemma exists_compose_of_reordered (hreordered : m.Reordered settings m')
    (hcompose : compose settings m = .ok a) :
    ∃ a', compose settings m' = .ok a' ∧ a.SameResolvers a' := by
  obtain ⟨injectables, h, order, hi, hh, horder, hresolvers, hnaming⟩ :=
    compose_eq_ok_iff.1 hcompose
  obtain ⟨injectables', hi', hperm, hnodup⟩ := hreordered.exists_injectables hi
  obtain ⟨h', hh', hsame⟩ := hreordered.exists_ofInterfaces hh
  obtain ⟨order', horder', hordered'⟩ := Hierarchy.exists_ordersProviders settings hh'
  have hordered := Hierarchy.ordersProviders_of_composedOrder hh horder
  obtain ⟨resolvers', hresolvers', hpermResolvers⟩ :=
    Traversal.exists_mapM_of_perm (hordered.perm hsame hordered') hresolvers
  rw [Resolver.build_eq_of_perm settings hsame hperm hnodup] at hresolvers'
  refine ⟨⟨resolvers', settings.naming⟩, compose_eq_ok_iff.2 ⟨injectables', h', order', hi', hh',
    horder', hresolvers', rfl⟩, hpermResolvers, ?_, hnaming⟩
  rw [map_name_of_mapM hresolvers]
  exact hordered.nodup

/-- Both runs fail in the same way, or both succeed with the same outline for each provider. -/
inductive SameOutcome : Except Failure Assembly → Except Failure Assembly → Prop
  | missingConstructor (e e' : MissingConstructor) :
      SameOutcome (.error (.missingConstructor e)) (.error (.missingConstructor e'))
  | circularInheritance (e : CircularInheritance) :
      SameOutcome (.error (.circularInheritance e)) (.error (.circularInheritance e))
  | circularDependency (provider provider' : String) (e e' : CircularDependency) :
      SameOutcome (.error (.circularDependency provider e))
        (.error (.circularDependency provider' e'))
  | composed (a a' : Assembly) (houtlines : a.outlines.Perm a'.outlines)
      (hprovider : ∀ provider,
        (a.find? provider).map a.outline = (a'.find? provider).map a'.outline) :
      SameOutcome (.ok a) (.ok a')

lemma SameResolvers.sameOutcome {a' : Assembly} (hsame : a.SameResolvers a') :
    SameOutcome (.ok a) (.ok a') := by
  refine .composed a a' ?_ fun provider => by rw [hsame.find?_eq, hsame.outline_eq]
  rw [outlines, outlines, hsame.outline_eq]
  exact hsame.perm.map _

/-- Declarations in another order come to the same. -/
theorem sameOutcome_of_reordered (hreordered : m.Reordered settings m') :
    m.sortedImports = m'.sortedImports ∧
      SameOutcome (compose settings m) (compose settings m') := by
  refine ⟨Names.sorted_congr fun _ => hreordered.perm_imports.mem_iff, ?_⟩
  by_cases hlacking : ∃ t ∈ m.types, Manifest.Lacking settings.markers.injectable t
  · obtain ⟨t, _, hfails⟩ := exists_compose_eq_missingConstructor hlacking
    obtain ⟨t', _, hfails'⟩ :=
      exists_compose_eq_missingConstructor (hreordered.exists_lacking hlacking)
    rw [hfails, hfails']
    exact .missingConstructor _ _
  push Not at hlacking
  obtain ⟨injectables, hi⟩ := Manifest.exists_injectables hlacking
  obtain ⟨injectables', hi', hperm, hnodup⟩ := hreordered.exists_injectables hi
  by_cases hcyclic : Cyclic (Hierarchy.links ⟨Hierarchy.effective m.interfaces⟩)
  · obtain ⟨e, he, hfails⟩ := exists_compose_eq_circularInheritance hi hcyclic
    obtain ⟨e', he', hfails'⟩ :=
      exists_compose_eq_circularInheritance hi' (hreordered.sameInterfaces.links_eq ▸ hcyclic)
    rw [hreordered.ofInterfaces_eq_error he, Except.error.injEq] at he'
    rw [hfails, hfails', he']
    exact .circularInheritance _
  have hh := Hierarchy.ofInterfaces_eq_ok_iff.2 ⟨rfl, hcyclic⟩
  obtain ⟨h', hh', hsame⟩ := hreordered.exists_ofInterfaces hh
  obtain ⟨order, horder, hordered⟩ := Hierarchy.exists_ordersProviders settings hh
  obtain ⟨order', horder', hordered'⟩ := Hierarchy.exists_ordersProviders settings hh'
  by_cases hcircular : ∃ name ∈ order,
    Resolver.Circular settings ⟨Hierarchy.effective m.interfaces⟩ injectables name
  · obtain ⟨name, e, _, _, hfails⟩ := exists_compose_eq_circularDependency hi hh horder hcircular
    -- the same providers have circular graphs, but another one of them may come first
    have hcircular' : ∃ name ∈ order', Resolver.Circular settings h' injectables' name := by
      obtain ⟨name, hname, hcircular⟩ := hcircular
      exact ⟨name, (hordered.perm hsame hordered').mem_iff.1 hname,
        (Resolver.circular_iff_of_perm hsame hperm hnodup).1 hcircular⟩
    obtain ⟨name', e', _, _, hfails'⟩ :=
      exists_compose_eq_circularDependency hi' hh' horder' hcircular'
    rw [hfails, hfails']
    exact .circularDependency _ _ _ _
  · push Not at hcircular
    obtain ⟨a, hok, _⟩ := exists_compose_eq_ok hi hh horder hcircular
    obtain ⟨a', hok', hsame⟩ := exists_compose_of_reordered hreordered hok
    rw [hok, hok']
    exact hsame.sameOutcome

/-- The diamond comes to the same with its providers declared from the lowest one up, although the
two in the middle are composed in the other order. -/
theorem sameOutcome_diamond_reversed : ∃ m, diamond.Reordered {} m ∧
    (compose {} diamond).toOption.map (·.outlines.map Outline.providerName) =
      some ["Base", "Left", "Right", "Leaf"] ∧
    (compose {} m).toOption.map (·.outlines.map Outline.providerName) =
      some ["Base", "Right", "Left", "Leaf"] ∧
    diamond.sortedImports = m.sortedImports ∧
    SameOutcome (compose {} diamond) (compose {} m) := by
  have hreordered : diamond.Reordered {}
      { diamond with interfaces := diamond.interfaces.reverse } :=
    ⟨.refl _, (List.reverse_perm _).symm, .refl _, by decide, by decide⟩
  exact ⟨_, hreordered, by decide +kernel, by decide +kernel, sameOutcome_of_reordered hreordered⟩

end Assembly

end Wiring
