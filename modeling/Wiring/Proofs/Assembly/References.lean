import Wiring.Proofs.Assembly.Suppression
import Wiring.Proofs.Graph.Needs

/-!
# What resolve functions refer to

A body is in scope if whatever it names exists (`Body.InScope`): the functions that it calls, the
arguments that it passes on, and the bindings that its last call reads. Every resolve function that
a resolver declares has such a body, although the functions that it calls may be declared by an
inherited resolver, whose graph is another one (`inScope_of_mem_resolveRoutines`).
-/

namespace Wiring

open Link Sameness

/-- All that the body names is there: what it calls can be called, it passes on nothing but
arguments of its routine, and the last call takes such arguments or what has been bound before. -/
inductive Body.InScope (callable : Call → Prop) (interceptor : String → Prop)
    (arguments : List Argument) : List String → Body → Prop
  | bind {bound : List String} {name : String} {call : Call} {rest : Body}
      (hcall : callable call) (harguments : ∀ a ∈ call.arguments, arguments.contains a = true)
      (hrest : rest.InScope callable interceptor arguments (name :: bound)) :
      Body.InScope callable interceptor arguments bound (.bind name call rest)
  | intercept {bound : List String} {name : String} {builder : Body} (hname : interceptor name)
      (hbuilder : builder.InScope callable interceptor arguments bound) :
      Body.InScope callable interceptor arguments bound (.intercept name builder .done)
  | give {bound : List String} {call : Call}
      (harguments : ∀ a ∈ call.arguments, arguments.contains a = true ∨ a.bindingName ∈ bound) :
      Body.InScope callable interceptor arguments bound (.give call .done)

/-! ### Bodies of a graph -/

namespace Graph

variable {g : Graph} {n : Node} {t : String} {edges : List Edge} {rest : Body}
variable {bound : List String} {callable : Call → Prop} {interceptor : String → Prop}

/-- Bindings are in scope in front of whatever is in scope behind them. -/
lemma inScope_bindEdges (hg : g.WellLinked)
    (hcallable : ∀ d, Step g.links t d → callable (g.resolveCall d))
    (hedges : ∀ e ∈ edges, e ∈ g.edgesOf t)
    (hrest : ∀ bound' : List String, bound ⊆ bound' →
      (∀ e ∈ edges, e.isParameter = false → e.argument.bindingName ∈ bound') →
      rest.InScope callable interceptor (g.requiredArguments t) bound') :
    (g.bindEdges edges rest).InScope callable interceptor (g.requiredArguments t) bound := by
  induction edges generalizing bound with
  | nil => exact hrest bound (List.Subset.refl _) (by simp)
  | cons e edges ih =>
    obtain ⟨he, hedges⟩ := List.forall_mem_cons.1 hedges
    cases hparameter : e.isParameter with
    | true =>
      rw [bindEdges_cons_of_parameter hparameter]
      apply ih hedges
      intro bound' hsubset hbound
      apply hrest bound' hsubset
      exact List.forall_mem_cons.2 ⟨by simp [hparameter], hbound⟩
    | false =>
      have hstep : Step g.links t e.target := hg.step_links_iff.2 ⟨e, he, hparameter, rfl⟩
      rw [bindEdges_cons_of_node hparameter]
      refine .bind (hcallable _ hstep) ?_ ?_
      · intro a ha
        exact contains_requiredArguments_of_step hg hstep (contains_of_mem ha)
      · apply ih hedges
        intro bound' hsubset hbound
        obtain ⟨hname, hsubset⟩ := List.cons_subset.1 hsubset
        exact hrest bound' hsubset (List.forall_mem_cons.2 ⟨fun _ => hname, hbound⟩)

lemma inScope_constructorCall (hg : g.WellLinked) (hn : g.node? t = some n)
    (hbound : ∀ e ∈ n.edges, e.isParameter = false → e.argument.bindingName ∈ bound) :
    (Body.give (constructorCall n) .done).InScope callable interceptor (g.requiredArguments t)
      bound := by
  apply Body.InScope.give
  intro a ha
  have hedge : a ∈ n.edges.map Edge.argument := by
    rwa [hg.arguments_eq n (mem_nodes_of_node? hn)]
  obtain ⟨e, he, rfl⟩ := List.mem_map.1 hedge
  cases hparameter : e.isParameter with
  | true =>
    rw [← edgesOf_of_node? hn] at he
    exact .inl (contains_requiredArguments_of_mem hg he hparameter)
  | false => exact .inr (hbound e he hparameter)

/-- The body of a resolve function is in scope if its interceptor is there and the resolve
functions of all types that it takes can be called. -/
theorem inScope_resolveRoutine (hg : g.WellLinked) {routine : Routine}
    (hroutine : g.resolveRoutine? t = some routine)
    (hinterceptor : interceptor (g.naming.interceptFunction t))
    (hcallable : ∀ d, Step g.links t d → callable (g.resolveCall d)) :
    routine.body.InScope callable interceptor routine.signature.arguments [] := by
  obtain ⟨n, hn, _⟩ := Option.map_eq_some_iff.1 hroutine
  rw [resolveRoutine?_of_node? hn] at hroutine
  cases hroutine
  apply Body.InScope.intercept hinterceptor
  apply inScope_bindEdges hg hcallable
  · simp [edgesOf_of_node? hn]
  · intro bound _ hbound
    exact inScope_constructorCall hg hn hbound

end Graph

/-! ### Bodies of an assembly -/

namespace Assembly

variable {settings : Settings} {h : Hierarchy} {injectables : List Injectable} {m : Manifest}
variable {a : Assembly} {r : Resolver} {t : String}

/-- The resolver or one that it inherits from declares a resolve function of the name and with the
arguments of the call. -/
def Callable (a : Assembly) (r : Resolver) (call : Call) : Prop :=
  ∃ p ∈ r :: a.transitiveParents r, ∃ s ∈ a.resolveSignatures p,
    call.callee = .function s.name ∧ (call.arguments == s.arguments) = true

/-- The resolver or one that it inherits from declares an intercept function of the name. -/
def Interceptor (a : Assembly) (r : Resolver) (name : String) : Prop :=
  ∃ p ∈ r :: a.transitiveParents r, ∃ s ∈ a.interceptSignatures p, s.name = name

lemma Composed.callable_resolveCall (ha : a.Composed settings h injectables)
    (hr : r ∈ a.resolvers) (ht : t ∈ r.graph.typeNames) :
    a.Callable r (r.graph.resolveCall t) := by
  have hs : r.graph.allSignatures.contains (r.graph.resolveSignature t) = true :=
    Graph.contains_allSignatures_iff.2 ⟨t, ht, BEq.rfl⟩
  obtain ⟨p, hp, hps⟩ := ha.exists_contains_resolveSignatures hr hs
  obtain ⟨s, hs, hsame⟩ := List.contains_iff_exists_mem_beq.1 hps
  obtain ⟨_, hname, harguments, _⟩ := signature_beq_iff.1 hsame
  refine ⟨p, hp, s, hs, ?_, harguments⟩
  rw [← hname]
  rfl

/-- The body of every declared resolve function names only what its resolver or one that this
inherits from declares, arguments of the function itself, and its own bindings. -/
theorem inScope_of_mem_resolveRoutines (hcompose : compose settings m = .ok a)
    (hr : r ∈ a.resolvers) : ∀ routine ∈ a.resolveRoutines r,
      routine.body.InScope (a.Callable r) (a.Interceptor r) routine.signature.arguments [] := by
  obtain ⟨h, injectables, ha⟩ := exists_composed hcompose
  have hg : r.graph.WellLinked := ha.wellLinked hr
  intro routine hroutine
  obtain ⟨t, ht, hroutine⟩ := List.mem_filterMap.1 hroutine
  have ht : t ∈ r.graph.typeNames := (mem_resolvableTypeNames_iff.1 ht).1
  apply Graph.inScope_resolveRoutine hg hroutine
  · rw [ha.naming_graph hr]
    exact ha.exists_intercepts hr ht
  · -- the type that is taken belongs to the resolver's own graph, whoever declares its function
    intro d hstep
    exact ha.callable_resolveCall hr (hg.links_target_mem _ hstep)

/-- The lowest provider of the diamond calls a resolve function that an inherited resolver
declares. -/
theorem inScope_diamond : ∃ a r, compose {} diamond = .ok a ∧ r ∈ a.resolvers ∧
    (a.resolveRoutines r).map (·.signature.name) = ["resolveApp", "resolveStore"] ∧
    ∀ routine ∈ a.resolveRoutines r,
      routine.body.InScope (a.Callable r) (a.Interceptor r) routine.signature.arguments [] := by
  obtain ⟨a, r, hcompose, hr, _, hroutines⟩ := exists_compose_diamond
  exact ⟨a, r, hcompose, hr, hroutines, inScope_of_mem_resolveRoutines hcompose hr⟩

end Assembly

end Wiring
