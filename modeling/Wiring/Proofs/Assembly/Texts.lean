import Wiring.Proofs.Assembly.Suppression
import Wiring.Proofs.Signature.Text

/-!
# Declarations and their texts

Functions are collected and left out by comparing signatures. For signatures whose text can be read
back this comes to comparing texts: of the functions that are shown alike an interface keeps one,
and a resolver declares exactly the texts that no inherited resolver can declare.
-/

namespace Wiring

open Sameness

variable {l : List Signature} {s : Signature}

namespace Signature

lemma contains_iff_text_mem (hs : s.IsPlain) (hl : ∀ t ∈ l, t.IsPlain) :
    l.contains s = true ↔ s.text ∈ l.map text := by
  rw [List.contains_iff_exists_mem_beq, List.mem_map]
  apply exists_congr
  intro t
  apply and_congr_right
  intro ht
  rw [beq_iff_text_eq hs (hl t ht), eq_comm]

lemma map_text_eraseDups (hl : ∀ s ∈ l, s.IsPlain) :
    l.eraseDups.map text = (l.map text).eraseDups :=
  map_eraseDups fun s hs t ht => by
    rw [Bool.eq_iff_iff, beq_iff_text_eq (hl s hs) (hl t ht), beq_iff_eq]

end Signature

namespace Assembly

variable {a : Assembly} {r : Resolver}

/-- The texts that a resolver declares are those of its graph that no inherited graph has. -/
lemma map_text_resolveSignatures
    (hplain : ∀ p ∈ r :: a.transitiveParents r, ∀ s ∈ p.graph.allSignatures, s.IsPlain) :
    (a.resolveSignatures r).map Signature.text =
      (r.graph.allSignatures.map Signature.text).filter fun text =>
        ∀ p ∈ a.transitiveParents r, text ∉ p.graph.allSignatures.map Signature.text := by
  obtain ⟨hr, hparents⟩ := List.forall_mem_cons.1 hplain
  rw [resolveSignatures, resolvableTypeNames, Graph.allSignatures, List.map_map, List.map_map,
    List.filter_map]
  congr 1
  apply List.filter_congr
  intro t ht
  have hs := hr _ (List.mem_map.2 ⟨t, ht, rfl⟩)
  have hinherited : ∀ s ∈ (a.transitiveParents r).flatMap fun p => p.graph.allSignatures,
      s.IsPlain := fun s hs => by
    obtain ⟨p, hp, hs⟩ := List.mem_flatMap.1 hs
    exact hparents p hp s hs
  have hcontains := Signature.contains_iff_text_mem hs hinherited
  rw [List.map_flatMap, List.mem_flatMap] at hcontains
  rw [Bool.eq_iff_iff, Bool.not_eq_true', ← Bool.not_eq_true]
  refine (not_congr hcontains).trans ?_
  simp only [not_exists, not_and, Function.comp_apply, decide_eq_true_eq]

/-! ### Sameness and texts -/

/-- Signatures are the same exactly if they are shown alike. Collecting the functions of an
interface and leaving out what inherited resolvers can declare therefore drop no function that is
shown differently from those that are kept, and keep no two that are shown alike. -/
theorem sameness_iff_shown_alike :
    (∀ s t : Signature, s.IsPlain → t.IsPlain → ((s == t) = true ↔ s.text = t.text)) ∧
    (∀ (h : Hierarchy) (name : String), (∀ s ∈ (h.lineage name).flatMap h.functions, s.IsPlain) →
      (h.transitiveFunctions name).map Signature.text =
        (((h.lineage name).flatMap h.functions).map Signature.text).eraseDups) ∧
    (∀ (a : Assembly) (r : Resolver),
      (∀ p ∈ r :: a.transitiveParents r, ∀ s ∈ p.graph.allSignatures, s.IsPlain) →
      (a.resolveSignatures r).map Signature.text =
        (r.graph.allSignatures.map Signature.text).filter fun text =>
          ∀ p ∈ a.transitiveParents r, text ∉ p.graph.allSignatures.map Signature.text) := by
  refine ⟨?_, ?_, ?_⟩
  · intro s t hs ht
    exact Signature.beq_iff_text_eq hs ht
  · intro h name hplain
    exact Signature.map_text_eraseDups hplain
  · intro a r hplain
    exact map_text_resolveSignatures hplain

/-- A signature with a function among its argument types; one of its binding names repeats the
label if `repeated` tells so, and is left out otherwise. -/
def withCallback (repeated : Bool) : Signature where
  scope := .staticLevel
  name := "make"
  arguments :=
    [⟨"_", some "key", "(A, B) -> (C)"⟩, ⟨"id", if repeated then some "id" else none, "Int"⟩]
  returnTypeName := some "any Store"

/-- The interfaces of the diamond. -/
def ofDiamond : Hierarchy :=
  ⟨diamond.interfaces⟩

lemma exists_compose_plain_diamond : ∃ a r, compose {} diamond = .ok a ∧ r ∈ a.resolvers ∧
    (a.transitiveParents r).length = 3 ∧
    ∀ p ∈ r :: a.transitiveParents r, ∀ s ∈ p.graph.allSignatures, s.IsPlain := by
  obtain ⟨a, r, hcompose, hr, hfound⟩ := exists_resolver_of_any diamond
    (fun a r => (a.transitiveParents r).length = 3 ∧
      ∀ p ∈ r :: a.transitiveParents r, ∀ s ∈ p.graph.allSignatures, s.IsPlain)
    (by decide +kernel)
  exact ⟨a, r, hcompose, hr, of_decide_eq_true hfound⟩

/-- The two spellings of a binding name are the same and shown alike. In the diamond the texts of
the lowest interface are collected once and those that the resolvers above it have are left out. -/
theorem sameness_iff_shown_alike_diamond :
    (withCallback true).IsPlain ∧ (withCallback false).IsPlain ∧
    ((withCallback true == withCallback false) = true ↔
      (withCallback true).text = (withCallback false).text) ∧
    (∀ s ∈ (ofDiamond.lineage "Leaf").flatMap ofDiamond.functions, s.IsPlain) ∧
    (ofDiamond.transitiveFunctions "Leaf").map Signature.text =
      (((ofDiamond.lineage "Leaf").flatMap ofDiamond.functions).map Signature.text).eraseDups ∧
    ∃ a r, compose {} diamond = .ok a ∧ r ∈ a.resolvers ∧ (a.transitiveParents r).length = 3 ∧
      (∀ p ∈ r :: a.transitiveParents r, ∀ s ∈ p.graph.allSignatures, s.IsPlain) ∧
      (a.resolveSignatures r).map Signature.text =
        (r.graph.allSignatures.map Signature.text).filter fun text =>
          ∀ p ∈ a.transitiveParents r, text ∉ p.graph.allSignatures.map Signature.text := by
  have htrue : (withCallback true).IsPlain := by decide +kernel
  have hfalse : (withCallback false).IsPlain := by decide +kernel
  have hfunctions : ∀ s ∈ (ofDiamond.lineage "Leaf").flatMap ofDiamond.functions, s.IsPlain := by
    decide +kernel
  obtain ⟨a, r, hcompose, hr, hlength, hplain⟩ := exists_compose_plain_diamond
  exact ⟨htrue, hfalse, sameness_iff_shown_alike.1 _ _ htrue hfalse,
    hfunctions, sameness_iff_shown_alike.2.1 _ _ hfunctions,
    a, r, hcompose, hr, hlength, hplain, sameness_iff_shown_alike.2.2 a r hplain⟩

end Assembly

end Wiring
