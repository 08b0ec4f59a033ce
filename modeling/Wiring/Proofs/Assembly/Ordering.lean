import Wiring.Proofs.Assembly.Inheritance
import Wiring.Proofs.Peeling.Entries

/-!
# The composed order of providers

The providers are the interfaces that extend the provider marker (`mem_providerNames_iff`).
Without a circle among the interfaces they can always be put into an order: it holds every provider
once, and none of them stands in front of one that it inherits from (`exists_composedOrder`).
-/

namespace Wiring.Hierarchy

open Relation Link Peeling

variable {settings : Settings} {h : Hierarchy} {a b : String}

/-! ### Providers -/

theorem mem_providerNames_iff :
    a ∈ h.providerNames settings ↔ h.Extends a settings.markers.provider := by
  rw [providerNames, descendants, ← inherits_iff]
  simp only [List.mem_map, List.mem_filter]
  constructor
  · rintro ⟨i, ⟨_, hi⟩, rfl⟩
    exact hi
  · intro ha
    obtain ⟨i, hi, rfl⟩ := List.mem_map.1 (mem_names_of_extends (inherits_iff.1 ha))
    exact ⟨i, ⟨hi, ha⟩, rfl⟩

lemma nodup_providerNames (settings : Settings) (hnodup : h.names.Nodup) :
    (h.providerNames settings).Nodup :=
  hnodup.sublist (List.filter_sublist.map Interface.name)

/-! ### What the order is made from -/

/-- A provider as it is ordered, with the providers above it. -/
def demand (h : Hierarchy) (settings : Settings) (name : String) : Demand String :=
  ⟨name, h.providerAncestors settings name⟩

/-- A provider needs those above it. -/
lemma needs_demand_iff (hb : b ∈ h.providerNames settings) :
    Needs (· == ·) (h.demand settings) (h.providerNames settings).reverse a b ↔
      b ∈ h.ancestors a := by
  constructor
  · rintro ⟨need, hneed, hfound⟩
    obtain rfl : b = need := eq_of_beq (same_of_position? hfound)
    exact (mem_providerAncestors_iff.1 hneed).1
  · intro habove
    refine ⟨b, mem_providerAncestors_iff.2 ⟨habove, hb⟩, ?_⟩
    exact Sameness.find?_key_eq_some (f := id) (List.mem_reverse.2 hb) fun _ _ h => h

/-- The providers are taken off in turn, and the order is turned round. -/
theorem composedOrder_eq_some_iff (settings : Settings) (hnodup : h.names.Nodup)
    {order : List String} : h.composedOrder settings = some order ↔
      TakenOff (fun a b => b ∈ h.ancestors a) (h.providerNames settings).reverse order.reverse := by
  have hsame : Equivalence fun a b : String => (a == b) = true := by
    simpa using eq_equivalence (α := String)
  have hneeds : ∀ a ∈ (h.providerNames settings).reverse,
      ∀ b ∈ (h.providerNames settings).reverse,
        Needs (· == ·) (h.demand settings) (h.providerNames settings).reverse a b ↔
          b ∈ h.ancestors a :=
    fun _ _ _ hb => needs_demand_iff (List.mem_reverse.1 hb)
  have hpeel := peel_eq_some_iff (h.demand settings) hsame
    (List.nodup_reverse.2 (nodup_providerNames settings hnodup))
  have helement : ∀ taken : List String,
      (taken.map fun name => (h.demand settings name).element) = taken := fun taken => by
    simp [demand]
  simp only [helement] at hpeel
  change (peel (· == ·) ((h.providerNames settings).reverse.map (h.demand settings))).map
    List.reverse = some order ↔ _
  rw [Option.map_eq_some_iff]
  constructor
  · rintro ⟨taken, htaken, rfl⟩
    obtain ⟨_, htaken, rfl⟩ := (hpeel taken).1 htaken
    rw [List.reverse_reverse]
    exact htaken.congr hneeds
  · intro htaken
    refine ⟨order.reverse, (hpeel _).2 ⟨order.reverse, ?_, rfl⟩, List.reverse_reverse _⟩
    exact htaken.congr fun a ha b hb => (hneeds a ha b hb).symm

/-! ### The order -/

lemma transGen_of_ancestors (hab : TransGen (fun a b => b ∈ h.ancestors a) a b) :
    TransGen (Step h.links) a b := by
  simpa only [mem_ancestors_iff, transGen_eq_self] using hab

lemma not_transGen_ancestors_self (hacyclic : ¬ Cyclic h.links) :
    ¬ TransGen (fun a b => b ∈ h.ancestors a) a a :=
  fun ha => hacyclic ⟨a, transGen_of_ancestors ha⟩

theorem exists_composedOrder (settings : Settings) (hnodup : h.names.Nodup)
    (hacyclic : ¬ Cyclic h.links) :
    ∃ order, h.composedOrder settings = some order ∧ order.Perm (h.providerNames settings) ∧
      order.Pairwise fun a b => b ∉ h.ancestors a := by
  obtain ⟨taken, htaken⟩ := exists_takenOff (fun _ => not_transGen_ancestors_self hacyclic)
    (h.providerNames settings).reverse
  refine ⟨taken.reverse, ?_, ?_, ?_⟩
  · rwa [composedOrder_eq_some_iff settings hnodup, List.reverse_reverse]
  · exact (List.reverse_perm _).trans (htaken.perm.trans (List.reverse_perm _))
  · rw [List.pairwise_reverse]
    exact htaken.pairwise

/-- Providers that are declared in rising rank are composed in rising rank where they are free. One
that is composed in front of one of lower rank is extended by one that ranks no higher than that. -/
theorem pairwise_composedOrder (hnodup : h.names.Nodup) (hacyclic : ¬ Cyclic h.links)
    {rank : String → ℕ} (hrank : (h.providerNames settings).Pairwise fun a b => rank a < rank b)
    {order : List String} (horder : h.composedOrder settings = some order) :
    order.Pairwise fun b a => rank a < rank b →
      ∃ d ∈ h.providerNames settings, rank d ≤ rank a ∧ TransGen (Step h.links) d b := by
  have htaken := (composedOrder_eq_some_iff settings hnodup).1 horder
  have hfalling : (h.providerNames settings).reverse.Pairwise fun a b => rank b < rank a :=
    List.pairwise_reverse.2 hrank
  have hforced := htaken.pairwise_of_rank (fun _ => not_transGen_ancestors_self hacyclic) hfalling
  refine (List.pairwise_reverse.1 hforced).imp ?_
  intro b a hforced hab
  obtain ⟨d, hd, hda, hdb⟩ := hforced hab
  exact ⟨d, List.mem_reverse.1 hd, hda, transGen_of_ancestors hdb⟩

end Wiring.Hierarchy
