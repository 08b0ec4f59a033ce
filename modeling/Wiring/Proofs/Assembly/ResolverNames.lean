import Wiring.Proofs.Assembly.Composition
import Wiring.Proofs.Assembly.Suppression

/-!
# Names of resolvers

A resolver has the name of its provider with the resolver suffix in place of the provider suffix,
or behind it if the provider has no such suffix. Two providers share a resolver name just if one of
them is called like the other one with the suffix added for the first time (`Naming.Collide`). The
resolvers of a run have different names as long as no two of its providers are called so
(`collide_iff_and_nodup`).
-/

namespace Wiring

namespace Naming

variable {n : Naming} {p q : String}

/-- A name ends with the provider suffix. -/
def EndsWithSuffix (n : Naming) (name : String) : Prop :=
  ∃ stem, name = stem ++ n.providerSuffix

/-- The longer name is the shorter one with the provider suffix behind it, and the shorter one does
not end with the suffix itself. -/
structure Lengthens (n : Naming) (longer shorter : String) : Prop where
  suffix_ne : n.providerSuffix ≠ ""
  eq_append : longer = shorter ++ n.providerSuffix
  not_endsWithSuffix : ¬ n.EndsWithSuffix shorter

/-- One of the two names lengthens the other. -/
def Collide (n : Naming) (p q : String) : Prop :=
  n.Lengthens p q ∨ n.Lengthens q p

/-! ### Stems -/

lemma stem_append (hsuffix : n.providerSuffix ≠ "") (name : String) :
    n.stem (name ++ n.providerSuffix) = name := by
  have hstem : n.providerSuffix.toList.isSuffixOf? (name ++ n.providerSuffix).toList =
      some name.toList := by
    rw [List.isSuffixOf?_eq_some_iff_append_eq, String.toList_append]
  rw [stem, if_neg hsuffix, hstem]
  exact String.ofList_toList

lemma stem_of_not_endsWithSuffix (h : ¬ n.EndsWithSuffix p) : n.stem p = p := by
  rw [stem]
  split
  · rfl
  · split
    · next stem hstem =>
      rw [List.isSuffixOf?_eq_some_iff_append_eq] at hstem
      refine absurd ⟨String.ofList stem, ?_⟩ h
      rw [← String.toList_inj, String.toList_append, String.toList_ofList, hstem]
    · rfl

/-- A name has the provider suffix behind its stem, or else is its own stem. -/
lemma stem_cases (n : Naming) (name : String) :
    (n.providerSuffix ≠ "" ∧ name = n.stem name ++ n.providerSuffix) ∨
      (n.stem name = name ∧ (n.providerSuffix ≠ "" → ¬ n.EndsWithSuffix name)) := by
  by_cases hsuffix : n.providerSuffix = ""
  · exact .inr ⟨by rw [stem, if_pos hsuffix], fun hne => absurd hsuffix hne⟩
  by_cases hends : n.EndsWithSuffix name
  · obtain ⟨stem, rfl⟩ := hends
    exact .inl ⟨hsuffix, by rw [stem_append hsuffix]⟩
  · exact .inr ⟨stem_of_not_endsWithSuffix hends, fun _ => hends⟩

/-! ### Collisions -/

lemma Lengthens.ne (h : n.Lengthens p q) : p ≠ q := by
  rintro rfl
  exact h.not_endsWithSuffix ⟨p, h.eq_append⟩

lemma Lengthens.resolverName_eq (h : n.Lengthens p q) : n.resolverName p = n.resolverName q := by
  rw [resolverName, resolverName, h.eq_append, stem_append h.suffix_ne,
    stem_of_not_endsWithSuffix h.not_endsWithSuffix]

theorem resolverName_eq_iff (hpq : p ≠ q) :
    n.resolverName p = n.resolverName q ↔ n.Collide p q := by
  constructor
  · intro h
    have hstem : n.stem p = n.stem q := (String.append_left_inj _).1 h
    rcases n.stem_cases p with ⟨hsuffix, hp⟩ | ⟨hp, hpends⟩
    · rcases n.stem_cases q with ⟨_, hq⟩ | ⟨hq, hqends⟩
      · exact absurd (by rw [hp, hstem, ← hq]) hpq
      · exact .inl ⟨hsuffix, by rw [hp, hstem, hq], hqends hsuffix⟩
    · rcases n.stem_cases q with ⟨hsuffix, hq⟩ | ⟨hq, _⟩
      · exact .inr ⟨hsuffix, by rw [hq, ← hstem, hp], hpends hsuffix⟩
      · exact absurd (by rw [← hp, hstem, hq]) hpq
  · rintro (h | h)
    · exact h.resolverName_eq
    · exact h.resolverName_eq.symm

lemma Collide.ne (h : n.Collide p q) : p ≠ q := by
  rcases h with h | h
  · exact h.ne
  · exact h.ne.symm

/-- Names that differ stay different as names of resolvers just if no two of them collide. -/
lemma nodup_map_resolverName_iff {names : List String} (hnames : names.Nodup) :
    (names.map n.resolverName).Nodup ↔ ∀ p ∈ names, ∀ q ∈ names, ¬ n.Collide p q := by
  rw [List.nodup_map_iff_inj_on hnames]
  constructor
  · intro hinj p hp q hq hcollide
    exact hcollide.ne (hinj p hp q hq ((resolverName_eq_iff hcollide.ne).2 hcollide))
  · intro hnone p hp q hq hname
    by_contra hpq
    exact hnone p hp q hq ((resolverName_eq_iff hpq).1 hname)

end Naming

namespace Assembly

lemma map_name_outlines (a : Assembly) : a.outlines.map Outline.name =
    (a.resolvers.map (·.provider.name)).map a.naming.resolverName := by
  rw [outlines, List.map_map, List.map_map]
  rfl

/-- Different providers share a resolver name just if they collide, under any naming rules, and the
resolvers that a run gives have different names just if no two providers of the run collide. -/
theorem collide_iff_and_nodup :
    (∀ (n : Naming) (p q : String), p ≠ q →
      (n.resolverName p = n.resolverName q ↔ n.Collide p q)) ∧
    ∀ settings m a, compose settings m = .ok a →
      ∃ h, Hierarchy.ofInterfaces m.interfaces = .ok h ∧
        ((a.outlines.map Outline.name).Nodup ↔
          ∀ p q, h.Extends p settings.markers.provider → h.Extends q settings.markers.provider →
            ¬ settings.naming.Collide p q) := by
  refine ⟨fun n p q hpq => Naming.resolverName_eq_iff hpq, fun settings m a hcompose => ?_⟩
  obtain ⟨h, injectables, hh, ha, hordered⟩ := exists_composed_of_compose hcompose
  refine ⟨h, hh, ?_⟩
  rw [map_name_outlines, ha.naming_eq, Naming.nodup_map_resolverName_iff hordered.nodup]
  simp only [hordered.mem_iff]
  exact ⟨fun hnone p q hp hq => hnone p hp q hq, fun hnone p hp q hq => hnone p q hp hq⟩

/-- Two providers one of which has the suffix behind the name of the other. -/
def namesakes : Manifest where
  interfaces := [{ name := "App", inherited := ["Provider"] },
    { name := "AppProvider", inherited := ["Provider"] }]

/-- The two providers give two resolvers of one name. -/
theorem collide_iff_and_nodup_namesakes : ∃ a h, compose {} namesakes = .ok a ∧
    Hierarchy.ofInterfaces namesakes.interfaces = .ok h ∧
    a.outlines.map Outline.name = ["AppResolver", "AppResolver"] ∧
    ({} : Naming).Collide "App" "AppProvider" ∧
    ∃ p q, h.Extends p "Provider" ∧ h.Extends q "Provider" ∧ ({} : Naming).Collide p q := by
  obtain ⟨a, _, hcompose, _, hfound⟩ := exists_resolver_of_any namesakes
    (fun a _ => a.outlines.map Outline.name = ["AppResolver", "AppResolver"]) (by decide +kernel)
  have hnames := of_decide_eq_true hfound
  obtain ⟨hcollide, hruns⟩ := collide_iff_and_nodup
  obtain ⟨h, hh, hnodup⟩ := hruns {} namesakes a hcompose
  refine ⟨a, h, hcompose, hh, hnames, ?_, ?_⟩
  · exact (hcollide {} "App" "AppProvider" (by decide)).1 (by decide)
  · by_contra hnone
    push Not at hnone
    have hdistinct := hnodup.2 hnone
    rw [hnames] at hdistinct
    exact absurd hdistinct (by decide)

end Assembly

end Wiring
