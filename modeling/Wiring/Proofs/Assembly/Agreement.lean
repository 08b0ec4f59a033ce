import Wiring.Proofs.Assembly.Ordering

/-!
# Hierarchies that agree

Two hierarchies may declare the same under some names and nothing that these inherit from may lead
away from them (`Hierarchy.AgreeOn`). Every query about one of these names then has the same answer
in both hierarchies, and the same resolver is built for it (`Resolver.build_eq_of_agreeOn`).
-/

namespace Wiring

open Link

namespace Hierarchy

variable {h h' : Hierarchy} {P : String → Prop} {name marker : String}

/-- Both hierarchies declare the same under the names with the property, and whatever the interfaces
of these names inherit from has the property too. -/
structure AgreeOn (P : String → Prop) (h h' : Hierarchy) : Prop where
  find?_eq : ∀ name, P name → h.find? name = h'.find? name
  closed : ∀ name, P name → ∀ parent ∈ h.inherited name, P parent

lemma contains_names (h : Hierarchy) (name : String) :
    h.names.contains name = (h.find? name).isSome := by
  have hnone : h.find? name = none ↔ name ∉ h.names := Sameness.find?_key_eq_none_iff
  rw [Bool.eq_iff_iff, List.contains_iff_mem, ← Option.ne_none_iff_isSome, Ne, hnone, not_not]

namespace AgreeOn

variable (hagree : AgreeOn P h h')
include hagree

lemma inherited_eq (hname : P name) : h.inherited name = h'.inherited name := by
  rw [inherited, inherited, hagree.find?_eq name hname]

lemma functions_eq (hname : P name) : h.functions name = h'.functions name := by
  rw [functions, functions, hagree.find?_eq name hname]

lemma contains_names_eq (hname : P name) : h.names.contains name = h'.names.contains name := by
  rw [contains_names, contains_names, hagree.find?_eq name hname]

lemma parents_eq (hname : P name) : h.parents name = h'.parents name := by
  rw [parents, parents, ← hagree.inherited_eq hname]
  exact List.filter_congr fun parent hparent =>
    hagree.contains_names_eq (hagree.closed name hname parent hparent)

lemma of_mem_parents (hname : P name) : ∀ parent ∈ h.parents name, P parent :=
  fun parent hparent => hagree.closed name hname parent (List.mem_of_mem_filter hparent)

lemma ancestors_eq (hname : P name) : h.ancestors name = h'.ancestors name := by
  rw [ancestors, ancestors, ← hagree.parents_eq hname]
  exact Walk.walk_congr_of_closed (hagree.of_mem_parents hname) (fun _ => hagree.of_mem_parents)
    (fun _ => hagree.parents_eq) fun _ => hagree.contains_names_eq

lemma lineage_eq (hname : P name) : h.lineage name = h'.lineage name := by
  rw [lineage, lineage, hagree.ancestors_eq hname]

lemma of_mem_ancestors (hname : P name) {a : String} (ha : a ∈ h.ancestors name) : P a := by
  rw [mem_ancestors_iff] at ha
  induction ha with
  | single hstep => exact hagree.of_mem_parents hname _ (step_links_iff.1 hstep)
  | tail _ hstep ih => exact hagree.of_mem_parents ih _ (step_links_iff.1 hstep)

lemma of_mem_lineage (hname : P name) {a : String} (ha : a ∈ h.lineage name) : P a := by
  rcases mem_lineage_iff.1 ha with rfl | ha
  · exact hname
  · exact hagree.of_mem_ancestors hname ha

lemma inherits_eq (hname : P name) : h.inherits name marker = h'.inherits name marker := by
  rw [inherits, inherits, ← hagree.ancestors_eq hname, Bool.eq_iff_iff, List.any_eq_true,
    List.any_eq_true]
  refine exists_congr fun a => and_congr_right fun ha => ?_
  rw [hagree.inherited_eq (hagree.of_mem_lineage hname (mem_lineage_iff.2 (List.mem_cons.1 ha)))]

/-! ### Providers -/

variable (settings : Settings)

lemma provider_eq (hname : P name) : h.provider settings name = h'.provider settings name := by
  rw [provider, provider, hagree.functions_eq hname, hagree.parents_eq hname]

lemma provideFunctions_eq (hname : P name) :
    h.provideFunctions settings name = h'.provideFunctions settings name := by
  have hfunctions : (h.lineage name).flatMap h.functions = (h.lineage name).flatMap h'.functions :=
    List.flatMap_congr fun _ ha => hagree.functions_eq (hagree.of_mem_lineage hname ha)
  rw [provideFunctions, provideFunctions, transitiveFunctions, transitiveFunctions, hfunctions,
    hagree.lineage_eq hname]

lemma mem_providerNames_iff_mem (hname : P name) :
    name ∈ h.providerNames settings ↔ name ∈ h'.providerNames settings := by
  rw [mem_providerNames_iff, mem_providerNames_iff, ← inherits_iff, ← inherits_iff,
    hagree.inherits_eq hname]

lemma providerAncestors_eq (hname : P name) :
    h.providerAncestors settings name = h'.providerAncestors settings name := by
  rw [providerAncestors, providerAncestors, ← hagree.ancestors_eq hname]
  apply List.filter_congr
  intro a ha
  have hprovider := hagree.mem_providerNames_iff_mem settings (hagree.of_mem_ancestors hname ha)
  rw [Bool.eq_iff_iff, List.contains_iff_mem, hprovider, List.contains_iff_mem]

end AgreeOn

end Hierarchy

lemma Resolver.build_eq_of_agreeOn {h h' : Hierarchy} {P : String → Prop}
    (hagree : Hierarchy.AgreeOn P h h') (settings : Settings) (injectables : List Injectable)
    {name : String} (hname : P name) :
    Resolver.build settings h injectables name = Resolver.build settings h' injectables name := by
  rw [Resolver.build, Resolver.build, hagree.provideFunctions_eq settings hname,
    hagree.provider_eq settings hname, hagree.providerAncestors_eq settings hname]

end Wiring
