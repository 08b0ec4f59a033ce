import Wiring.Proofs.Assembly.Composition
import Wiring.Proofs.Assembly.Suppression

/-!
# What the header of a resolver gives it

A resolver leaves out what it takes for inherited: the declarations of the resolvers of all
providers above its own. Its header names only the resolvers of the providers that its provider
names as parents. The two agree (`conforms_of_compose`): whoever follows the headers from resolver
to resolver comes to exactly the resolvers that were taken for inherited. Nothing gets in between,
because whatever lies below a provider is a provider itself (`Hierarchy.Extends.of_transGen`).
-/

namespace Wiring.Assembly

open Link Relation

variable {settings : Settings} {h : Hierarchy} {injectables : List Injectable}
variable {a : Assembly} {r p q : Resolver} {name : String} {m : Manifest}

/-! ### Direct parents -/

/-- The resolvers of the providers that a resolver's provider names as parents. -/
def directParents (a : Assembly) (r : Resolver) : List Resolver :=
  r.provider.parents.filterMap a.find?

lemma name_of_find? (hp : a.find? name = some p) : p.provider.name = name := by
  simpa using List.find?_some hp

lemma inheritedResolverNames_eq :
    a.inheritedResolverNames r = (a.directParents r).map a.nameOf := by
  rw [inheritedResolverNames, directParents]
  induction r.provider.parents with
  | nil => rfl
  | cons name names ih =>
    cases hp : a.find? name with
    | none => simpa [hp] using ih
    | some p => simpa [hp, nameOf, name_of_find? hp] using ih

lemma find?_eq_some_iff (hnodup : (a.resolvers.map (·.provider.name)).Nodup) :
    a.find? name = some p ↔ p ∈ a.resolvers ∧ p.provider.name = name := by
  constructor
  · exact fun hp => ⟨List.mem_of_find?_eq_some hp, name_of_find? hp⟩
  · rintro ⟨hp, rfl⟩
    exact Sameness.find?_key_eq_some hp fun _ hq => List.inj_on_of_nodup_map hnodup hq hp

namespace Composed

variable (ha : a.Composed settings h injectables)
variable (hordered : h.OrdersProviders settings (a.resolvers.map (·.provider.name)))
include ha hordered

lemma mem_directParents_iff (hr : r ∈ a.resolvers) : p ∈ a.directParents r ↔
    p ∈ a.resolvers ∧ Step h.links r.provider.name p.provider.name := by
  have hparents : r.provider.parents = h.parents r.provider.name := by
    rw [(fields_of_build (ha.build_eq r hr)).1]
    rfl
  rw [directParents, List.mem_filterMap, hparents]
  simp only [find?_eq_some_iff hordered.nodup, Hierarchy.step_links_iff]
  constructor
  · rintro ⟨_, hparent, hp, rfl⟩
    exact ⟨hp, hparent⟩
  · rintro ⟨hp, hparent⟩
    exact ⟨_, hparent, hp, rfl⟩

/-! ### Inherited resolvers -/

/-- The resolvers that are taken for inherited are those that links lead to. -/
lemma mem_transitiveParents_iff_transGen (hr : r ∈ a.resolvers) : p ∈ a.transitiveParents r ↔
    p ∈ a.resolvers ∧ TransGen (Step h.links) r.provider.name p.provider.name := by
  rw [ha.mem_transitiveParents_iff hr]
  apply and_congr_right
  intro hp
  rw [Hierarchy.mem_providerAncestors_iff, Hierarchy.mem_ancestors_iff,
    Hierarchy.mem_providerNames_iff, ← hordered.mem_iff]
  exact and_iff_left (List.mem_map_of_mem hp)

lemma exists_mem_transitiveParents_iff (hr : r ∈ a.resolvers) :
    (∃ p ∈ a.transitiveParents r, p.provider.name = name) ↔
      TransGen (Step h.links) r.provider.name name ∧
        h.Extends name settings.markers.provider := by
  simp only [ha.mem_transitiveParents_iff_transGen hordered hr, ← hordered.mem_iff, List.mem_map]
  constructor
  · rintro ⟨p, ⟨hp, habove⟩, rfl⟩
    exact ⟨habove, p, hp, rfl⟩
  · rintro ⟨habove, p, hp, rfl⟩
    exact ⟨p, ⟨hp, habove⟩, rfl⟩

lemma exists_transitiveParents_sublist (hr : r ∈ a.resolvers) :
    ∃ before after, a.resolvers = before ++ r :: after ∧
      (a.transitiveParents r).Sublist before := by
  obtain ⟨before, after, hsplit⟩ := List.append_of_mem hr
  refine ⟨before, after, hsplit, ?_⟩
  have hlate : ∀ p ∈ r :: after, p ∉ a.transitiveParents r := by
    intro p hp habove
    have hancestor := ha.mem_ancestors hr habove
    rcases List.mem_cons.1 hp with rfl | hp
    · exact Hierarchy.not_mem_ancestors_self ha.not_cyclic hancestor
    · have hpairwise := List.pairwise_map.1 hordered.pairwise
      rw [hsplit, List.pairwise_append] at hpairwise
      exact List.rel_of_pairwise_cons hpairwise.2.1 hp hancestor
  have hsublist : (a.transitiveParents r).Sublist (before ++ r :: after) :=
    hsplit ▸ List.filter_sublist
  obtain ⟨early, late, hparents, hearly, hlater⟩ := List.sublist_append_iff.1 hsublist
  have hnil : late = [] := by
    rw [List.eq_nil_iff_forall_not_mem]
    intro p hp
    exact hlate p (hlater.subset hp) (hparents ▸ List.mem_append_right early hp)
  rwa [hparents, hnil, List.append_nil]

/-- The links from one provider to another can be followed by direct parents. -/
lemma transGen_directParents (hr : r ∈ a.resolvers) (hp : p ∈ a.resolvers)
    (habove : TransGen (Step h.links) r.provider.name p.provider.name) :
    TransGen (fun q p => p ∈ a.directParents q) r p := by
  generalize hname : r.provider.name = name at habove
  induction habove using TransGen.head_induction_on generalizing r with
  | single hstep =>
    rw [← hname] at hstep
    exact .single ((ha.mem_directParents_iff hordered hr).2 ⟨hp, hstep⟩)
  | head hstep habove ih =>
    -- what lies between two providers is a provider
    have hextends := ((hordered.mem_iff _).1 (List.mem_map_of_mem hp)).of_transGen habove
    obtain ⟨q, hq, rfl⟩ := List.mem_map.1 ((hordered.mem_iff _).2 hextends)
    rw [← hname] at hstep
    exact .head ((ha.mem_directParents_iff hordered hr).2 ⟨hq, hstep⟩) (ih hq rfl)

/-- Whoever follows the direct parents comes to the inherited resolvers. -/
theorem mem_transitiveParents_iff_directParents (hr : r ∈ a.resolvers) :
    p ∈ a.transitiveParents r ↔ TransGen (fun q p => p ∈ a.directParents q) r p := by
  constructor
  · intro hp
    obtain ⟨hp, habove⟩ := (ha.mem_transitiveParents_iff_transGen hordered hr).1 hp
    exact ha.transGen_directParents hordered hr hp habove
  · intro hp
    rw [ha.mem_transitiveParents_iff_transGen hordered hr]
    induction hp with
    | single hp =>
      obtain ⟨hp, hstep⟩ := (ha.mem_directParents_iff hordered hr).1 hp
      exact ⟨hp, .single hstep⟩
    | tail _ hp ih =>
      obtain ⟨hp, hstep⟩ := (ha.mem_directParents_iff hordered ih.1).1 hp
      exact ⟨hp, ih.2.tail hstep⟩

end Composed

/-! ### Agreement -/

/-- What a resolver takes for inherited is what its header gives it. -/
structure Conforms (a : Assembly) (settings : Settings) (h : Hierarchy) (r : Resolver) :
    Prop where
  /-- It inherits from resolvers that stand in front of it, and in the same order. -/
  before : ∃ before after, a.resolvers = before ++ r :: after ∧
    (a.transitiveParents r).Sublist before
  distinct : ((a.transitiveParents r).map (·.provider.name)).Nodup
  /-- It inherits from the resolvers of the providers that its own extends. -/
  extended_iff : ∀ name, (∃ p ∈ a.transitiveParents r, p.provider.name = name) ↔
    TransGen (Step h.links) r.provider.name name ∧ h.Extends name settings.markers.provider
  header_eq : a.inheritedResolverNames r = (a.directParents r).map a.nameOf
  /-- The headers lead to the resolvers that it inherits from. -/
  followed_iff : ∀ p, p ∈ a.transitiveParents r ↔
    TransGen (fun q p => p ∈ a.directParents q) r p

/-- Every resolver of a run that succeeds gets by its header what it takes for inherited. -/
theorem conforms_of_compose (hcompose : compose settings m = .ok a) (hr : r ∈ a.resolvers) :
    ∃ h, Hierarchy.ofInterfaces m.interfaces = .ok h ∧ a.Conforms settings h r := by
  obtain ⟨h, injectables, hh, ha, hordered⟩ := exists_composed_of_compose hcompose
  refine ⟨h, hh, ?_⟩
  constructor
  case before => exact ha.exists_transitiveParents_sublist hordered hr
  case distinct => exact hordered.nodup.sublist (List.filter_sublist.map _)
  case extended_iff => exact fun _ => ha.exists_mem_transitiveParents_iff hordered hr
  case header_eq => exact inheritedResolverNames_eq
  case followed_iff => exact fun _ => ha.mem_transitiveParents_iff_directParents hordered hr

/-- The lowest provider of the diamond inherits from the topmost one through its two parents. -/
theorem conforms_diamond : ∃ a r h, compose {} diamond = .ok a ∧ r ∈ a.resolvers ∧
    (a.transitiveParents r).map (·.provider.name) = ["Base", "Left", "Right"] ∧
    a.Conforms {} h r := by
  obtain ⟨a, r, hcompose, hr, hparents, _⟩ := exists_compose_diamond
  obtain ⟨h, _, hconforms⟩ := conforms_of_compose hcompose hr
  exact ⟨a, r, h, hcompose, hr, hparents, hconforms⟩

end Wiring.Assembly
