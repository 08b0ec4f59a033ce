import Wiring.Graph.Routines
import Wiring.Proofs.Graph.Linking

/-!
# The routines of a graph

The shape of what is generated for the types of a graph: different types have functions of
different names, the signature of a routine is that of its type, and the body of a resolve function
binds the edges that lead to nodes, in their order.
-/

namespace Wiring.Graph

open Sameness

variable {g : Graph} {s : Signature} {t t' : String} {n : Node}
variable {e : Edge} {edges : List Edge} {rest : Body}

/-! ### Names and signatures -/

lemma resolveFunction_injective (n : Naming) : Function.Injective n.resolveFunction :=
  fun _ _ h => (String.append_right_inj n.resolvePrefix).1 h

lemma interceptFunction_injective (n : Naming) : Function.Injective n.interceptFunction :=
  fun _ _ h => (String.append_right_inj n.interceptPrefix).1 h

/-- The signatures of the resolve functions of all types. -/
def allSignatures (g : Graph) : List Signature :=
  g.typeNames.map g.resolveSignature

lemma contains_allSignatures_iff : g.allSignatures.contains s = true ↔
    ∃ t ∈ g.typeNames, (s == g.resolveSignature t) = true := by
  simp [allSignatures]

lemma eq_of_resolveSignature_beq (h : (g.resolveSignature t == g.resolveSignature t') = true) :
    t = t' := by
  obtain ⟨_, hname, _⟩ := signature_beq_iff.1 h
  exact resolveFunction_injective g.naming hname

lemma resolveRoutine?_of_node? (hn : g.node? t = some n) : g.resolveRoutine? t = some
    { signature := g.resolveSignature t
      body := .intercept (g.naming.interceptFunction t)
        (g.bindEdges n.edges (.give (constructorCall n) .done)) .done } := by
  simp [resolveRoutine?, hn]

lemma map_signature_filterMap {types : List String} (h : types ⊆ g.typeNames) :
    (types.filterMap g.resolveRoutine?).map Routine.signature = types.map g.resolveSignature := by
  induction types with
  | nil => rfl
  | cons t types ih =>
    obtain ⟨ht, htypes⟩ := List.cons_subset.1 h
    obtain ⟨n, hn⟩ := mem_typeNames_iff.1 ht
    rw [List.filterMap_cons_some (resolveRoutine?_of_node? hn), List.map_cons, List.map_cons,
      ih htypes]

/-! ### Bodies -/

lemma bindEdges_cons_of_parameter (h : e.isParameter = true) :
    g.bindEdges (e :: edges) rest = g.bindEdges edges rest := by
  simp [bindEdges, h]

lemma bindEdges_cons_of_node (h : e.isParameter = false) :
    g.bindEdges (e :: edges) rest =
      .bind e.argument.bindingName (g.resolveCall e.target) (g.bindEdges edges rest) := by
  simp [bindEdges, h]

end Wiring.Graph
