import Wiring.Proofs.Graph.Needs

/-!
# Required arguments compose

A resolve function takes the arguments of its type's constructor that nothing constructs, and for
every other argument what the resolve function of the node takes that the argument stands for, each
of the same arguments once (`requirementsCompose_of_build`). Callers and callees collect their
arguments independently of each other, each from its own transitive edges, and so they agree.
-/

namespace Wiring.Graph

open Link Relation Sameness

variable {settings : Settings} {functions : List Signature} {injectables : List Injectable}
variable {recipes : List Recipe} {g : Graph} {n : Node} {e : Edge} {t name : String}
variable {a : Argument} {edges l : List Edge}

/-! ### Arguments that a traversal passes -/

/-- The argument of an edge that has to be passed in. -/
def passed (e : Edge) : List Argument :=
  if e.isParameter then [e.argument] else []

lemma flatMap_passed (edges : List Edge) :
    edges.flatMap passed = (edges.filter Edge.isParameter).map Edge.argument := by
  induction edges with
  | nil => rfl
  | cons e edges ih => cases he : e.isParameter <;> simp [passed, he, ih]

/-- The required arguments can be collected from the whole expansion as well. -/
lemma requiredArguments_eq (h : g.WellLinked) (hl : g.Expansion t l) :
    g.requiredArguments t = (l.flatMap passed).eraseDups := by
  have hsame : ∀ e f : Edge, (e == f) = true → ∀ a ∈ passed e, (passed f).contains a = true := by
    intro e f hef a ha
    obtain ⟨hargument, _, hparameter, _⟩ := edge_beq_iff.1 hef
    simp only [passed, ← hparameter] at ha ⊢
    split at ha
    · next hp =>
      rw [List.mem_singleton.1 ha]
      simpa [hp] using hargument
    · cases ha
  rw [requiredArguments, ← flatMap_passed, h.transitiveEdges_eq hl,
    eraseDups_flatMap_eraseDups hsame]

/-- What the edge of an argument makes the resolve function take. -/
def required (g : Graph) (e : Edge) : List Argument :=
  if e.isParameter then [e.argument] else g.requiredArguments e.target

/-- Collecting arguments edge by edge, without duplicates within each of them, comes to the same. -/
lemma eraseDups_flatMap_required (h : g.WellLinked) (hedges : ∀ e ∈ edges, e ∈ g.edges)
    (hl : Walk.Expands (fun e => g.edgesOf e.target) edges l) :
    (l.flatMap passed).eraseDups = (edges.flatMap g.required).eraseDups := by
  induction hl with
  | nil => rfl
  | @cons e rest below behind hbelow _ _ ih =>
    obtain ⟨he, hrest⟩ := List.forall_mem_cons.1 hedges
    have hfirst : (passed e ++ below.flatMap passed).eraseDups = (g.required e).eraseDups := by
      cases hparameter : e.isParameter with
      | true =>
        -- a parameter has no edges, so there is nothing below it
        have hnone : g.edgesOf e.target = [] :=
          edgesOf_eq_nil fun ht => by simp [(h.target_mem_iff e he).1 ht] at hparameter
        rw [hnone] at hbelow
        cases hbelow
        simp [passed, required, hparameter]
      | false =>
        have hbelow' : g.Expansion e.target below := hbelow
        simp [passed, required, hparameter, requiredArguments_eq h hbelow']
    rw [List.flatMap_cons, List.flatMap_cons, List.flatMap_append, ← List.append_assoc]
    exact eraseDups_append_congr hfirst (ih hrest)

theorem requiredArguments_eq_flatMap (h : g.WellLinked) (hn : g.node? t = some n) :
    g.requiredArguments t = (n.edges.flatMap g.required).eraseDups := by
  obtain ⟨l, hl⟩ := h.exists_expansion t
  have hexpansion : g.Expansion t l := (hl l).2 rfl
  rw [requiredArguments_eq h hexpansion, ← edgesOf_of_node? hn]
  exact eraseDups_flatMap_required h (fun _ => mem_edges_of_mem_edgesOf) hexpansion

/-! ### Arguments and nodes -/

/-- The node that constructs what an argument takes: that of its type, or else that of the type that
its type speaks of. -/
def nodeFor? (g : Graph) (settings : Settings) (a : Argument) : Option Node :=
  (g.node? a.typeName).or (g.node? (settings.bareName a.typeName))

lemma nodeFor?_ofRecipes : (ofRecipes settings recipes).nodeFor? settings a =
    (Recipe.forArgument? settings recipes a.typeName).map (Node.ofRecipe settings recipes) := by
  rw [nodeFor?, node?_ofRecipes, node?_ofRecipes, Recipe.forArgument?, Option.map_or]

lemma required_ofArgument (hrecipes : ∀ r ∈ recipes, r.kind ≠ .parameter) :
    (ofRecipes settings recipes).required (Edge.ofArgument settings recipes a) =
      match (ofRecipes settings recipes).nodeFor? settings a with
      | none => [a]
      | some d => (ofRecipes settings recipes).requiredArguments d.typeName := by
  rw [required, isParameter_ofArgument hrecipes, argument_ofArgument, nodeFor?_ofRecipes,
    Edge.ofArgument]
  cases Recipe.forArgument? settings recipes a.typeName <;> rfl

/-! ### Parameters -/

lemma typeName_eq_target (hg : build settings functions injectables = .ok g) (he : e ∈ g.edges)
    (hparameter : e.isParameter = true) : e.argument.typeName = e.target := by
  obtain ⟨rfl, _⟩ := build_eq_ok_iff.1 hg
  rw [mem_edges_ofRecipes he] at hparameter ⊢
  rw [isParameter_ofArgument fun _ => Recipe.kind_ne_parameter, Option.isNone_iff_eq_none]
    at hparameter
  rw [argument_ofArgument, Edge.ofArgument, hparameter]

/-- How the resolve functions of a graph share their arguments. -/
structure RequirementsCompose (g : Graph) (settings : Settings) : Prop where
  /-- A resolve function takes what nothing constructs, and what the resolve functions take of the
  nodes that its constructor takes. -/
  arguments_eq : ∀ t n, g.node? t = some n → (g.resolveSignature t).arguments =
    (n.constructor.arguments.flatMap fun a =>
      match g.nodeFor? settings a with
      | none => [a]
      | some d => (g.resolveSignature d.typeName).arguments).eraseDups
  /-- The parameters of the graph are the types of what its resolve functions take. -/
  parameters_eq : g.parameters = Names.sorted
    ((g.typeNames.flatMap fun t => (g.resolveSignature t).arguments).map Argument.typeName)

lemma mem_parameters_iff (hg : build settings functions injectables = .ok g) :
    name ∈ g.parameters ↔
      ∃ t ∈ g.typeNames, ∃ a ∈ g.requiredArguments t, a.typeName = name := by
  have h := wellLinked_of_build hg
  rw [mem_parameters_iff_exists_edge]
  constructor
  · rintro ⟨e, he, hparameter, rfl⟩
    obtain ⟨n, hn, hne⟩ := List.mem_flatMap.1 he
    have hnode := h.node?_of_mem hn
    have hcontains : (g.requiredArguments n.typeName).contains e.argument = true :=
      contains_requiredArguments_of_mem h (by rwa [edgesOf_of_node? hnode]) hparameter
    obtain ⟨a, ha, hea⟩ := List.contains_iff_exists_mem_beq.1 hcontains
    refine ⟨n.typeName, mem_typeNames_iff.2 ⟨n, hnode⟩, a, ha, ?_⟩
    rw [← typeName_eq_target hg he hparameter, (Argument.beq_iff_fields.1 hea).2.2]
  · rintro ⟨t, _, a, ha, rfl⟩
    obtain ⟨d, _, e, he, hparameter, hae⟩ :=
      (contains_requiredArguments_iff h).1 (contains_of_mem ha)
    have he := mem_edges_of_mem_edgesOf he
    refine ⟨e, he, hparameter, ?_⟩
    rw [← typeName_eq_target hg he hparameter, (Argument.beq_iff_fields.1 hae).2.2]

theorem requirementsCompose_of_build (hg : build settings functions injectables = .ok g) :
    g.RequirementsCompose settings := by
  constructor
  case arguments_eq =>
    intro t n hn
    have heq := requiredArguments_eq_flatMap (wellLinked_of_build hg) hn
    obtain ⟨rfl, _⟩ := build_eq_ok_iff.1 hg
    obtain ⟨r, _, rfl⟩ := mem_nodes_ofRecipes (mem_nodes_of_node? hn)
    refine heq.trans ?_
    rw [Node.ofRecipe, List.flatMap_map]
    simp only [required_ofArgument fun _ => Recipe.kind_ne_parameter]
    rfl
  case parameters_eq =>
    refine Names.sorted_congr fun name => ?_
    rw [← Names.mem_sorted, ← parameters, mem_parameters_iff hg]
    simp only [List.mem_map, List.mem_flatMap]
    constructor
    · rintro ⟨t, ht, a, ha, rfl⟩
      exact ⟨a, ⟨t, ht, ha⟩, rfl⟩
    · rintro ⟨a, ⟨t, ht, ha⟩, rfl⟩
      exact ⟨t, ht, a, ha, rfl⟩

/-- The application requires what its parts do: the path that both of them pass on to the store,
once and as the first one spells it, and then the title. -/
theorem requirementsCompose_of_parts :
    let injectables : List Injectable :=
      [⟨"App", { name := "init", arguments := [⟨"left", none, "Left"⟩, ⟨"right", none, "Right"⟩] }⟩,
        ⟨"Left", { name := "init", arguments := [⟨"path", some "path", "String"⟩,
          ⟨"store", none, "any Store"⟩] }⟩,
        ⟨"Right", { name := "init", arguments := [⟨"in", some "store", "Store"⟩,
          ⟨"title", none, "String"⟩] }⟩,
        ⟨"Store", { name := "init", arguments := [⟨"path", none, "String"⟩] }⟩]
    let g := ofRecipes {} (Recipe.all {} [] injectables)
    build {} [] injectables = .ok g ∧
      (g.resolveSignature "App").arguments =
        [⟨"path", some "path", "String"⟩, ⟨"title", none, "String"⟩] ∧
      g.parameters = ["String"] ∧ g.RequirementsCompose {} := by
  intro injectables g
  have hg : build {} [] injectables = .ok g := by decide +kernel
  exact ⟨hg, by decide +kernel, by decide +kernel, requirementsCompose_of_build hg⟩

end Wiring.Graph
