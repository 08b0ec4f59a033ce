import Wiring.Proofs.Assembly.Composition
import Wiring.Proofs.Hierarchy.Declarations

/-!
# Declared order and composed order

Resolvers stand behind those that they inherit from, and apart from that in the order in which their
providers are declared. A provider overtakes another one that is declared in front of it only if
something makes it: a provider that extends it and is declared no later than the overtaken one
(`Assembly.keepsOrder_of_compose`). Nothing is overtaken where every provider is declared behind
those that it extends.
-/

namespace Wiring

open Link Relation

/-! ### Places -/

/-- The place of an interface, which is that of its first declaration. -/
def Manifest.place (m : Manifest) (name : String) : ℕ :=
  (m.interfaces.map Interface.name).idxOf name

/-- The place of the resolver of a provider. -/
def Assembly.place (a : Assembly) (name : String) : ℕ :=
  (a.resolvers.map (·.provider.name)).idxOf name

lemma rel_of_idxOf_lt {R : String → String → Prop} {names : List String} {x y : String}
    (hpairwise : names.Pairwise R) (hy : y ∈ names) (hlt : names.idxOf x < names.idxOf y) :
    R x y := by
  have hylt : names.idxOf y < names.length := List.idxOf_lt_length_of_mem hy
  have hxy := List.pairwise_iff_getElem.1 hpairwise _ _ (hlt.trans hylt) hylt hlt
  rwa [List.getElem_idxOf, List.getElem_idxOf] at hxy

namespace Assembly

variable {settings : Settings} {h : Hierarchy} {m : Manifest} {a : Assembly}

/-! ### Overtaking -/

/-- How the order of the resolvers comes from the declarations. -/
structure KeepsOrder (a : Assembly) (settings : Settings) (m : Manifest) (h : Hierarchy) :
    Prop where
  exists_iff : ∀ p, (∃ r ∈ a.resolvers, r.provider.name = p) ↔
    h.Extends p settings.markers.provider
  /-- A provider comes behind all those that it extends. -/
  behind : ∀ p q, h.Extends p settings.markers.provider → h.Extends q settings.markers.provider →
    TransGen (Step h.links) p q → a.place q < a.place p
  /-- A provider that overtakes another one is extended by one declared no later than that. -/
  forced : ∀ p q, h.Extends p settings.markers.provider → h.Extends q settings.markers.provider →
    m.place p < m.place q → a.place q < a.place p →
    ∃ d, h.Extends d settings.markers.provider ∧ m.place d ≤ m.place p ∧
      TransGen (Step h.links) d q
  /-- Where nothing forces a provider to overtake another one, the order is the declared one. -/
  kept : (∀ p q, h.Extends p settings.markers.provider → h.Extends q settings.markers.provider →
      TransGen (Step h.links) p q → m.place q < m.place p) →
    ∀ p q, h.Extends p settings.markers.provider → h.Extends q settings.markers.provider →
      (a.place p < a.place q ↔ m.place p < m.place q)

section Places

variable {p q : String}
variable (hh : Hierarchy.ofInterfaces m.interfaces = .ok h)
variable (horder : h.composedOrder settings = some (a.resolvers.map (·.provider.name)))
include hh

lemma place_injective_of_extends (hp : h.Extends p settings.markers.provider)
    (hpq : m.place p = m.place q) : p = q := by
  obtain ⟨rfl, _⟩ := Hierarchy.ofInterfaces_eq_ok_iff.1 hh
  exact (List.idxOf_inj (Hierarchy.mem_names_effective.1 (Hierarchy.mem_names_of_extends hp))).1 hpq

lemma pairwise_place_providerNames (settings : Settings) :
    (h.providerNames settings).Pairwise fun p q => m.place p < m.place q := by
  obtain ⟨rfl, _⟩ := Hierarchy.ofInterfaces_eq_ok_iff.1 hh
  exact Hierarchy.pairwise_names_effective.sublist (List.filter_sublist.map Interface.name)

include horder

lemma mem_map_name_of_extends (hp : h.Extends p settings.markers.provider) :
    p ∈ a.resolvers.map (·.provider.name) :=
  ((Hierarchy.ordersProviders_of_composedOrder hh horder).mem_iff p).2 hp

lemma eq_of_place_eq (hp : h.Extends p settings.markers.provider) (hpq : a.place p = a.place q) :
    p = q :=
  (List.idxOf_inj (mem_map_name_of_extends hh horder hp)).1 hpq

lemma place_lt_of_transGen (hp : h.Extends p settings.markers.provider)
    (hq : h.Extends q settings.markers.provider) (hpq : TransGen (Step h.links) p q) :
    a.place q < a.place p := by
  rcases Nat.lt_trichotomy (a.place p) (a.place q) with hlt | heq | hlt
  · have hpairwise := (Hierarchy.ordersProviders_of_composedOrder hh horder).pairwise
    have hnot := rel_of_idxOf_lt hpairwise (mem_map_name_of_extends hh horder hq) hlt
    exact absurd (Hierarchy.mem_ancestors_iff.2 hpq) hnot
  · rw [eq_of_place_eq hh horder hp heq] at hpq
    exact absurd ⟨q, hpq⟩ (Hierarchy.ofInterfaces_eq_ok_iff.1 hh).2
  · exact hlt

lemma exists_of_overtaken (hp : h.Extends p settings.markers.provider)
    (hdeclared : m.place p < m.place q) (hcomposed : a.place q < a.place p) :
    ∃ d, h.Extends d settings.markers.provider ∧ m.place d ≤ m.place p ∧
      TransGen (Step h.links) d q := by
  obtain ⟨heffective, hacyclic⟩ := Hierarchy.ofInterfaces_eq_ok_iff.1 hh
  have hnodup : h.names.Nodup := heffective ▸ Hierarchy.nodup_names_effective m.interfaces
  have hpairwise := Hierarchy.pairwise_composedOrder hnodup hacyclic
    (pairwise_place_providerNames hh settings) horder
  obtain ⟨d, hd, hdp, hdq⟩ :=
    rel_of_idxOf_lt hpairwise (mem_map_name_of_extends hh horder hp) hcomposed hdeclared
  exact ⟨d, Hierarchy.mem_providerNames_iff.1 hd, hdp, hdq⟩

/-- Without an extending provider in front of an extended one nothing is overtaken. -/
lemma place_lt_of_place_lt
    (hbehind : ∀ p q, h.Extends p settings.markers.provider →
      h.Extends q settings.markers.provider → TransGen (Step h.links) p q → m.place q < m.place p)
    (hp : h.Extends p settings.markers.provider) (hq : h.Extends q settings.markers.provider)
    (hdeclared : m.place p < m.place q) : a.place p < a.place q := by
  rcases Nat.lt_trichotomy (a.place p) (a.place q) with hlt | heq | hlt
  · exact hlt
  · rw [eq_of_place_eq hh horder hp heq] at hdeclared
    exact absurd hdeclared (lt_irrefl _)
  · obtain ⟨d, hd, hdp, hdq⟩ := exists_of_overtaken hh horder hp hdeclared hlt
    have hqd := hbehind d q hd hq hdq
    omega

end Places

/-- The resolvers of a run keep the declared order, except where inheritance disturbs it. -/
theorem keepsOrder_of_compose (hcompose : compose settings m = .ok a) :
    ∃ h, Hierarchy.ofInterfaces m.interfaces = .ok h ∧ a.KeepsOrder settings m h := by
  obtain ⟨_, h, order, _, hh, horder, hresolvers, _⟩ := compose_eq_ok_iff.1 hcompose
  rw [← map_name_of_mapM hresolvers] at horder
  refine ⟨h, hh, ?_⟩
  constructor
  case exists_iff =>
    intro p
    rw [← (Hierarchy.ordersProviders_of_composedOrder hh horder).mem_iff, List.mem_map]
  case behind => exact fun _ _ => place_lt_of_transGen hh horder
  case forced => exact fun _ _ hp _ => exists_of_overtaken hh horder hp
  case kept =>
    intro hbehind p q hp hq
    refine ⟨fun hlt => ?_, place_lt_of_place_lt hh horder hbehind hp hq⟩
    rcases Nat.lt_trichotomy (m.place p) (m.place q) with hdeclared | heq | hdeclared
    · exact hdeclared
    · rw [place_injective_of_extends hh hp heq] at hlt
      exact absurd hlt (lt_irrefl _)
    · have hqp := place_lt_of_place_lt hh horder hbehind hq hp hdeclared
      omega

/-- A provider that overtakes another one, which is declared in front of it but behind one that
extends it. -/
def overtaking : Manifest where
  interfaces :=
    [{ name := "Early", inherited := ["Base"] }, { name := "Middle", inherited := ["Provider"] },
      { name := "Base", inherited := ["Provider"] }]

/-- What is extended by an early provider overtakes one that has nothing to do with it. -/
theorem keepsOrder_overtaking : ∃ a h, compose {} overtaking = .ok a ∧
    Hierarchy.ofInterfaces overtaking.interfaces = .ok h ∧
    a.resolvers.map (·.provider.name) = ["Base", "Early", "Middle"] ∧
    a.KeepsOrder {} overtaking h := by
  have hcompose : compose {} overtaking = .ok ((compose {} overtaking).toOption.getD default) := by
    decide +kernel
  obtain ⟨h, hh, hkeeps⟩ := keepsOrder_of_compose hcompose
  exact ⟨_, h, hcompose, hh, by decide +kernel, hkeeps⟩

end Assembly

end Wiring
