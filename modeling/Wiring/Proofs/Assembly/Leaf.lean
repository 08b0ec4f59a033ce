import Wiring.Proofs.Assembly.Agreement
import Wiring.Proofs.Assembly.DeclarationOrder
import Wiring.Proofs.Assembly.Suppression
import Wiring.Proofs.Layout.Sections

/-!
# One more interface

An interface that is declared behind all others and that none of them inherits from is a leaf.
Nothing that is generated for the others depends on it (`Assembly.outlines_append_of_leaf`): the
hierarchies with and without the leaf agree on all other names, the leaf is the first provider to be
taken off and so the last one to be composed, and no resolver inherits from its resolver.
-/

namespace Wiring

open Link Peeling Traversal

variable {settings : Settings} {leaf : Interface}

/-! ### Hierarchies with one more leaf -/

namespace Hierarchy

variable {h h' : Hierarchy} {name : String}

/-- The second hierarchy has one more interface, which none of the first one inherits from. -/
structure AddsLeaf (h h' : Hierarchy) (leaf : Interface) : Prop where
  interfaces_eq : h'.interfaces = h.interfaces ++ [leaf]
  new : leaf.name ∉ h.names
  not_inherited : ∀ i ∈ h.interfaces, leaf.name ∉ i.inherited

namespace AddsLeaf

variable (hadds : h.AddsLeaf h' leaf)
include hadds

lemma ne_of_mem_names (hname : name ∈ h.names) : name ≠ leaf.name := by
  rintro rfl
  exact hadds.new hname

/-- The names of all others lead nowhere near the leaf. -/
lemma agreeOn : AgreeOn (fun name => name ≠ leaf.name) h h' where
  find?_eq := by
    intro name hname
    rw [find?, find?, hadds.interfaces_eq, List.find?_append]
    simp [hname.symm]
  closed := by
    rintro name _ _ hparent rfl
    rw [inherited] at hparent
    cases hfind : h.find? name with
    | none => simp [hfind] at hparent
    | some i =>
      rw [hfind, Option.map_some, Option.getD_some] at hparent
      exact hadds.not_inherited i (List.mem_of_find?_eq_some hfind) hparent

/-! ### Providers with one more leaf -/

/-- The leaf is the last provider if it is one. -/
lemma providerNames_eq (settings : Settings) : h'.providerNames settings =
    h.providerNames settings ++
      if h'.inherits leaf.name settings.markers.provider then [leaf.name] else [] := by
  have hothers : h.interfaces.filter (fun i => h'.inherits i.name settings.markers.provider) =
      h.interfaces.filter fun i => h.inherits i.name settings.markers.provider := by
    apply List.filter_congr
    intro i hi
    rw [hadds.agreeOn.inherits_eq (hadds.ne_of_mem_names (List.mem_map.2 ⟨i, hi, rfl⟩))]
  rw [providerNames, descendants, hadds.interfaces_eq, List.filter_append, hothers,
    List.map_append, List.filter_cons, List.filter_nil, apply_ite (List.map Interface.name)]
  rfl

/-- The leaf comes behind everything else in the composed order. -/
lemma composedOrder_eq (hnodup : h.names.Nodup) (hnodup' : h'.names.Nodup)
    (hacyclic : ¬ Cyclic h'.links) {order : List String}
    (horder : h.composedOrder settings = some order) :
    h'.composedOrder settings = some
      (order ++ if h'.inherits leaf.name settings.markers.provider then [leaf.name] else []) := by
  rw [composedOrder_eq_some_iff settings hnodup] at horder
  rw [composedOrder_eq_some_iff settings hnodup', hadds.providerNames_eq]
  have hne : ∀ a ∈ (h.providerNames settings).reverse, a ≠ leaf.name := fun a ha =>
    hadds.ne_of_mem_names (mem_names_of_extends (mem_providerNames_iff.1 (List.mem_reverse.1 ha)))
  have hothers : TakenOff (fun a b => b ∈ h'.ancestors a) (h.providerNames settings).reverse
      order.reverse :=
    horder.congr fun a ha _ _ => by rw [hadds.agreeOn.ancestors_eq (hne a ha)]
  split
  · -- no provider needs the leaf, which is the first one left
    rw [List.reverse_append, List.reverse_append]
    refine .cons_first ?_ hothers
    intro a ha
    rcases List.mem_cons.1 ha with rfl | ha
    · exact not_mem_ancestors_self hacyclic
    · rw [← hadds.agreeOn.ancestors_eq (hne a ha)]
      exact fun habove => hadds.agreeOn.of_mem_ancestors (hne a ha) habove rfl
  · rwa [List.append_nil, List.append_nil]

end AddsLeaf

end Hierarchy

/-! ### Assemblies with one more leaf -/

namespace Assembly

variable {h h' : Hierarchy} {injectables : List Injectable}
variable {a a' : Assembly} {later : List Resolver} {r : Resolver} {name : String}

/-- What is known of two runs of which the second one has one more leaf. -/
structure AddsResolvers (settings : Settings) (h h' : Hierarchy) (injectables : List Injectable)
    (leaf : Interface) (a a' : Assembly) (later : List Resolver) : Prop where
  hierarchy : h.AddsLeaf h' leaf
  composed : a.Composed settings h injectables
  composed' : a'.Composed settings h' injectables
  ne_leaf : ∀ r ∈ a.resolvers, r.provider.name ≠ leaf.name
  resolvers_eq : a'.resolvers = a.resolvers ++ later
  later_eq : later.map (·.provider.name) =
    if h'.inherits leaf.name settings.markers.provider then [leaf.name] else []

namespace AddsResolvers

variable (hadds : AddsResolvers settings h h' injectables leaf a a' later)
include hadds

lemma eq_leaf (hr : r ∈ later) : r.provider.name = leaf.name := by
  have hname : r.provider.name ∈ later.map (·.provider.name) := List.mem_map.2 ⟨r, hr, rfl⟩
  rw [hadds.later_eq] at hname
  split at hname
  · exact List.mem_singleton.1 hname
  · cases hname

lemma find?_eq (hname : name ≠ leaf.name) : a.find? name = a'.find? name := by
  have hnone : later.find? (·.provider.name == name) = none := by
    rw [Sameness.find?_key_eq_none_iff, List.mem_map]
    rintro ⟨r, hr, rfl⟩
    exact hname (hadds.eq_leaf hr)
  rw [find?, find?, hadds.resolvers_eq, List.find?_append, hnone, Option.or_none]

lemma transitiveParents_eq (hr : r ∈ a.resolvers) :
    a.transitiveParents r = a'.transitiveParents r := by
  have hr' : r ∈ a'.resolvers := hadds.resolvers_eq ▸ List.mem_append_left later hr
  have hne := hadds.ne_leaf r hr
  have hnone : later.filter (fun p =>
      (h.providerAncestors settings r.provider.name).contains p.provider.name) = [] := by
    rw [List.filter_eq_nil_iff]
    intro p hp habove
    rw [hadds.eq_leaf hp, List.contains_iff_mem, Hierarchy.mem_providerAncestors_iff] at habove
    exact hadds.hierarchy.agreeOn.of_mem_ancestors hne habove.1 rfl
  rw [hadds.composed.transitiveParents_eq_filter hr,
    hadds.composed'.transitiveParents_eq_filter hr',
    ← hadds.hierarchy.agreeOn.providerAncestors_eq settings hne, hadds.resolvers_eq,
    List.filter_append, hnone, List.append_nil]

lemma naming_eq : a.naming = a'.naming := by
  rw [hadds.composed.naming_eq, hadds.composed'.naming_eq]

lemma inheritedResolverNames_eq (hr : r ∈ a.resolvers) :
    a.inheritedResolverNames r = a'.inheritedResolverNames r := by
  have hprovider : r.provider = h.provider settings r.provider.name :=
    (fields_of_build (hadds.composed.build_eq r hr)).1
  have hparents : ∀ parent ∈ r.provider.parents, parent ≠ leaf.name := by
    intro parent hparent
    rw [hprovider] at hparent
    exact hadds.hierarchy.agreeOn.of_mem_parents (hadds.ne_leaf r hr) parent hparent
  rw [inheritedResolverNames, inheritedResolverNames, hadds.naming_eq]
  congr 1
  exact List.filter_congr fun parent hparent => by rw [hadds.find?_eq (hparents parent hparent)]

/-- The earlier resolvers are generated as before. -/
lemma outline_eq (hr : r ∈ a.resolvers) : a.outline r = a'.outline r :=
  outline_congr hadds.naming_eq (hadds.transitiveParents_eq hr ▸ .refl _)
    (hadds.inheritedResolverNames_eq hr)

lemma outlines_eq : a'.outlines = a.outlines ++ later.map a'.outline := by
  rw [outlines, outlines, hadds.resolvers_eq, List.map_append,
    List.map_congr_left fun _ hr => hadds.outline_eq hr]

/-- If the leaf is a provider, its resolver is all that is new. -/
lemma exists_later_eq (hleaf : h'.Extends leaf.name settings.markers.provider) :
    ∃ r, later = [r] ∧ a'.find? leaf.name = some r := by
  have hlater := hadds.later_eq
  rw [if_pos (Hierarchy.inherits_iff.2 hleaf), List.map_eq_singleton_iff] at hlater
  obtain ⟨r, rfl, hr⟩ := hlater
  have hnone : a.resolvers.find? (·.provider.name == leaf.name) = none := by
    rw [Sameness.find?_key_eq_none_iff, List.mem_map]
    rintro ⟨p, hp, hname⟩
    exact hadds.ne_leaf p hp hname
  refine ⟨r, rfl, ?_⟩
  rw [find?, hadds.resolvers_eq, List.find?_append, hnone]
  simp [hr]

lemma later_eq_nil (hleaf : ¬ h'.Extends leaf.name settings.markers.provider) : later = [] := by
  have hlater := hadds.later_eq
  rwa [if_neg (mt Hierarchy.inherits_iff.1 hleaf), List.map_eq_nil_iff] at hlater

end AddsResolvers

end Assembly

/-! ### Manifests with one more leaf -/

namespace Manifest

variable {m : Manifest}

/-- The manifest with one more interface, declared behind the others. -/
def addInterface (m : Manifest) (i : Interface) : Manifest :=
  { m with interfaces := m.interfaces ++ [i] }

/-- Neither is the interface declared nor does a declared one inherit from it. -/
structure Unmentioned (m : Manifest) (i : Interface) : Prop where
  new : i.name ∉ m.interfaces.map Interface.name
  not_inherited : ∀ j ∈ m.interfaces, i.name ∉ j.inherited

lemma Unmentioned.addsLeaf (hleaf : m.Unmentioned leaf) :
    Hierarchy.AddsLeaf ⟨Hierarchy.effective m.interfaces⟩
      ⟨Hierarchy.effective (m.addInterface leaf).interfaces⟩ leaf where
  interfaces_eq := Hierarchy.effective_append_of_new hleaf.new
  new := mt Hierarchy.mem_names_effective.1 hleaf.new
  not_inherited := fun i hi => hleaf.not_inherited i (Hierarchy.mem_of_mem_effective hi)

end Manifest

namespace Assembly

variable {m : Manifest} {a a' : Assembly}

lemma exists_addsResolvers (hleaf : m.Unmentioned leaf) (hcompose : compose settings m = .ok a)
    (hcompose' : compose settings (m.addInterface leaf) = .ok a') :
    ∃ h h' injectables later,
      Hierarchy.ofInterfaces (m.addInterface leaf).interfaces = .ok h' ∧
        AddsResolvers settings h h' injectables leaf a a' later := by
  obtain ⟨injectables, h, order, hi, hh, horder, hresolvers, hnaming⟩ :=
    compose_eq_ok_iff.1 hcompose
  obtain ⟨injectables', h', order', hi', hh', horder', hresolvers', hnaming'⟩ :=
    compose_eq_ok_iff.1 hcompose'
  obtain rfl : injectables = injectables' := Except.ok.inj (hi.symm.trans hi')
  obtain ⟨heffective, _⟩ := Hierarchy.ofInterfaces_eq_ok_iff.1 hh
  obtain ⟨heffective', hacyclic⟩ := Hierarchy.ofInterfaces_eq_ok_iff.1 hh'
  have hadds : h.AddsLeaf h' leaf := by
    rw [heffective, heffective']
    exact hleaf.addsLeaf
  have hnodup : h.names.Nodup := heffective ▸ Hierarchy.nodup_names_effective _
  have hnodup' : h'.names.Nodup := heffective' ▸ Hierarchy.nodup_names_effective _
  have hordered := Hierarchy.ordersProviders_of_composedOrder hh horder
  have hne : ∀ name ∈ order, name ≠ leaf.name := fun name hname =>
    hadds.ne_of_mem_names (Hierarchy.mem_names_of_extends ((hordered.mem_iff name).1 hname))
  have hcomposed' := composed_of_mapM hh' hresolvers' hnaming'
  -- the second run builds the same resolvers first, and then that of the leaf
  rw [hadds.composedOrder_eq hnodup hnodup' hacyclic horder, Option.some.injEq] at horder'
  rw [← horder', mapM_append_eq_ok_iff] at hresolvers'
  obtain ⟨earlier, later, hearlier, hlater, hresolvers_eq⟩ := hresolvers'
  have hbuild : ∀ name ∈ order, Resolver.build settings h injectables name =
      Resolver.build settings h' injectables name := fun name hname =>
    Resolver.build_eq_of_agreeOn hadds.agreeOn settings injectables (hne name hname)
  rw [← mapM_congr hbuild, hresolvers, Except.ok.injEq] at hearlier
  refine ⟨h, h', injectables, later, hh', hadds, composed_of_mapM hh hresolvers hnaming,
    hcomposed', ?_, ?_, map_name_of_mapM hlater⟩
  · intro r hr
    apply hne
    rw [← map_name_of_mapM hresolvers]
    exact List.mem_map.2 ⟨r, hr, rfl⟩
  · rw [hresolvers_eq, hearlier]

lemma generate_eq_ok (hcompose : compose settings m = .ok a) : generate settings m =
    .ok (layout settings.layout settings.markers m.sortedImports a.outlines) := by
  rw [generate, hcompose]

/-- One more interface that nothing mentions leaves everything as it was: what is generated for it,
if it is a provider, comes behind what was generated before. -/
theorem outlines_append_of_leaf (hleaf : m.Unmentioned leaf)
    (hcompose : compose settings m = .ok a)
    (hcompose' : compose settings (m.addInterface leaf) = .ok a') :
    ∃ h text, Hierarchy.ofInterfaces (m.addInterface leaf).interfaces = .ok h ∧
      generate settings m = .ok text ∧
      (h.Extends leaf.name settings.markers.provider →
        ∃ r, a'.find? leaf.name = some r ∧ a'.outlines = a.outlines ++ [a'.outline r] ∧
          generate settings (m.addInterface leaf) =
            .ok (addSection text (settings.layout.resolverLines (a'.outline r)))) ∧
      (¬ h.Extends leaf.name settings.markers.provider →
        a'.outlines = a.outlines ∧ generate settings (m.addInterface leaf) = .ok text) := by
  obtain ⟨_, h, injectables, later, hh, hadds⟩ := exists_addsResolvers hleaf hcompose hcompose'
  have himports : (m.addInterface leaf).sortedImports = m.sortedImports := rfl
  refine ⟨h, _, hh, generate_eq_ok hcompose, ?_, ?_⟩
  · intro hprovider
    obtain ⟨r, rfl, hr⟩ := hadds.exists_later_eq hprovider
    have houtlines : a'.outlines = a.outlines ++ [a'.outline r] := hadds.outlines_eq
    refine ⟨r, hr, houtlines, ?_⟩
    rw [generate_eq_ok hcompose', himports, houtlines, layout_append]
  · intro hprovider
    have houtlines := hadds.outlines_eq
    rw [hadds.later_eq_nil hprovider, List.map_nil, List.append_nil] at houtlines
    exact ⟨houtlines, by rw [generate_eq_ok hcompose', himports, houtlines]⟩

/-- A provider below two of the diamond that has a variant of its own of a provide function. -/
def tip : Interface where
  name := "Tip"
  inherited := ["Right", "Left"]
  functions := [{ name := "provideStore", arguments := [⟨"log", none, "Log"⟩],
                  returnTypeName := some "Store" }]

/-- The tip gets the last section of the text, below those of the diamond. -/
theorem outlines_append_of_tip : ∃ a a' r text, compose {} diamond = .ok a ∧
    compose {} (diamond.addInterface tip) = .ok a' ∧ diamond.Unmentioned tip ∧
    a'.find? "Tip" = some r ∧ a'.outlines = a.outlines ++ [a'.outline r] ∧
    (a'.outline r).inheritedResolverNames = ["RightResolver", "LeftResolver"] ∧
    generate {} diamond = .ok text ∧
    generate {} (diamond.addInterface tip) =
      .ok (addSection text (LayoutOptions.resolverLines {} (a'.outline r))) := by
  have hleaf : diamond.Unmentioned tip := ⟨by decide, by decide⟩
  have hcompose : compose {} diamond = .ok ((compose {} diamond).toOption.getD default) := by
    decide +kernel
  have hcompose' : compose {} (diamond.addInterface tip) =
      .ok ((compose {} (diamond.addInterface tip)).toOption.getD default) := by
    decide +kernel
  obtain ⟨h, text, hh, htext, hprovider, _⟩ :=
    outlines_append_of_leaf hleaf hcompose hcompose'
  obtain ⟨rfl, _⟩ := Hierarchy.ofInterfaces_eq_ok_iff.1 hh
  obtain ⟨r, hr, houtlines, htext'⟩ := hprovider (Hierarchy.inherits_iff.1 (by decide +kernel))
  refine ⟨_, _, r, text, hcompose, hcompose', hleaf, hr, houtlines, ?_, htext, htext'⟩
  have hnames : (((compose {} (diamond.addInterface tip)).toOption.getD
      default).outlines.getLast?.map Outline.inheritedResolverNames) =
        some ["RightResolver", "LeftResolver"] := by
    decide +kernel
  simpa [houtlines] using hnames

end Assembly

end Wiring
