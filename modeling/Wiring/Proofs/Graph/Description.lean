import Mathlib.Data.List.Forall2
import Wiring.Proofs.Graph.Linking

/-!
# The graph that functions and injectable types describe

What a graph has to be can be said without saying how it is put together (`Described`): which types
it has, which function or injectable type each of them comes from, and where the arguments of
their constructors lead. There is only one such graph, and it is the one that is built
(`described_iff_of_build`). Functions take precedence over injectable types and later ones over
earlier ones. An argument leads to the node of its type, by the whole name before the bare one, and
becomes a parameter only if there is neither.
-/

namespace Wiring.Graph

open Sameness

variable {settings : Settings} {functions : List Signature} {injectables : List Injectable}
variable {recipes : List Recipe} {g g' : Graph} {n n' : Node} {e : Edge} {name target : String}
variable {a : Argument} {kind : NodeKind}

/-! ### Where arguments lead -/

/-- No node fits the type of the argument, under its whole name or under its bare one. -/
def Unresolved (g : Graph) (settings : Settings) (a : Argument) : Prop :=
  g.node? a.typeName = none ∧ g.node? (settings.bareName a.typeName) = none

/-- What an argument leads to, with the kind of it. -/
inductive LeadsTo (g : Graph) (settings : Settings) (a : Argument) : String → NodeKind → Prop
  /-- The node of the type under its whole name. -/
  | whole {n : Node} (hn : g.node? a.typeName = some n) :
      LeadsTo g settings a a.typeName n.kind
  /-- The node of the type under its bare name if there is none under the whole one. -/
  | bare {n : Node} (hnone : g.node? a.typeName = none)
      (hn : g.node? (settings.bareName a.typeName) = some n) :
      LeadsTo g settings a (settings.bareName a.typeName) n.kind
  /-- A parameter that keeps the whole name. -/
  | parameter (h : g.Unresolved settings a) :
      LeadsTo g settings a a.typeName .parameter

namespace LeadsTo

/-- An argument leads to one place only. -/
lemma unique {target' : String} {kind' : NodeKind} (h : g.LeadsTo settings a target kind)
    (h' : g.LeadsTo settings a target' kind') : target = target' ∧ kind = kind' := by
  cases h with
  | whole hn =>
    cases h' with
    | whole hn' => exact ⟨rfl, by rw [Option.some.inj (hn.symm.trans hn')]⟩
    | bare hnone _ => cases hn.symm.trans hnone
    | parameter hnone => cases hn.symm.trans hnone.1
  | bare hnone hn =>
    cases h' with
    | whole hn' => cases hn'.symm.trans hnone
    | bare _ hn' => exact ⟨rfl, by rw [Option.some.inj (hn.symm.trans hn')]⟩
    | parameter hnone' => cases hn.symm.trans hnone'.2
  | parameter hnone =>
    cases h' with
    | whole hn' => cases hn'.symm.trans hnone.1
    | bare _ hn' => cases hn'.symm.trans hnone.2
    | parameter _ => exact ⟨rfl, rfl⟩

lemma target_eq (h : g.LeadsTo settings a target kind) :
    target = a.typeName ∨ target = settings.bareName a.typeName := by
  cases h with
  | whole _ => exact .inl rfl
  | bare _ _ => exact .inr rfl
  | parameter _ => exact .inl rfl

/-- Of the nodes, only the kinds matter. -/
lemma congr_kinds (hkinds : ∀ name, (g.node? name).map Node.kind = (g'.node? name).map Node.kind)
    (h : g.LeadsTo settings a target kind) : g'.LeadsTo settings a target kind := by
  have hnone : ∀ {name}, g.node? name = none → g'.node? name = none := by
    intro name hnone
    rw [← Option.map_eq_none_iff, ← hkinds, hnone, Option.map_none]
  have hsome : ∀ {name n}, g.node? name = some n →
      ∃ n', g'.node? name = some n' ∧ n'.kind = n.kind := by
    intro name n hn
    rw [← Option.map_eq_some_iff, ← hkinds, hn, Option.map_some]
  cases h with
  | whole hn =>
    obtain ⟨n', hn', hkind⟩ := hsome hn
    exact hkind ▸ .whole hn'
  | bare hwhole hn =>
    obtain ⟨n', hn', hkind⟩ := hsome hn
    exact hkind ▸ .bare (hnone hwhole) hn'
  | parameter h => exact .parameter ⟨hnone h.1, hnone h.2⟩

end LeadsTo

/-- The edge carries the argument and leads where the argument does. -/
def Carries (g : Graph) (settings : Settings) (a : Argument) (e : Edge) : Prop :=
  e.argument = a ∧ g.LeadsTo settings a e.target e.kind

lemma rightUnique_carries : Relator.RightUnique (g.Carries settings) := by
  intro a e e' ⟨hargument, hleads⟩ ⟨hargument', hleads'⟩
  obtain ⟨htarget, hkind⟩ := hleads.unique hleads'
  cases e
  cases e'
  simp_all

lemma carries_ofArgument (a : Argument) :
    (ofRecipes settings recipes).Carries settings a (Edge.ofArgument settings recipes a) := by
  have hnode : ∀ {name r}, Recipe.find? recipes name = some r →
      (ofRecipes settings recipes).node? name = some (Node.ofRecipe settings recipes r) := by
    intro name r hr
    rw [node?_ofRecipes, hr, Option.map_some]
  have hnone : ∀ {name}, Recipe.find? recipes name = none →
      (ofRecipes settings recipes).node? name = none := by
    intro name hr
    rw [node?_ofRecipes, hr, Option.map_none]
  refine ⟨argument_ofArgument a, ?_⟩
  rw [Edge.ofArgument, Recipe.forArgument?]
  cases hwhole : Recipe.find? recipes a.typeName with
  | some r =>
    have hleads : LeadsTo _ settings a _ _ := .whole (hnode hwhole)
    rwa [← Recipe.typeName_of_find? hwhole] at hleads
  | none =>
    cases hbare : Recipe.find? recipes (settings.bareName a.typeName) with
    | some r =>
      have hleads := LeadsTo.bare (hnone hwhole) (hnode hbare)
      rwa [← Recipe.typeName_of_find? hbare] at hleads
    | none => exact .parameter ⟨hnone hwhole, hnone hbare⟩

/-! ### The described graph -/

/-- The graph is what the functions and injectable types describe. -/
structure Described (settings : Settings) (functions : List Signature)
    (injectables : List Injectable) (g : Graph) : Prop where
  naming_eq : g.naming = settings.naming
  /-- The types stand in ascending order, each once. -/
  ascending : g.typeNames.Pairwise (· < ·)
  /-- They are those of the injectable types and those that return types speak of. -/
  typeNames_iff : ∀ name, name ∈ g.typeNames ↔ (∃ i ∈ injectables, i.typeName = name) ∨
    ∃ f ∈ functions, f.returnTypeName.map settings.bareName = some name
  /-- The last function that constructs a type provides it. -/
  provided : ∀ n ∈ g.nodes, ∀ f,
    (functions.filter (settings.constructs n.typeName)).getLast? = some f →
      n.kind = .provided ∧ n.constructor = f
  /-- A type that no function constructs is built as the last injectable type of its name. -/
  injected : ∀ n ∈ g.nodes, functions.filter (settings.constructs n.typeName) = [] → ∀ i,
    (injectables.filter (·.typeName == n.typeName)).getLast? = some i →
      n.kind = .injected ∧ n.constructor = i.constructor
  /-- Every argument has its edge, in the order of the arguments. -/
  carried : ∀ n ∈ g.nodes, List.Forall₂ (g.Carries settings) n.constructor.arguments n.edges

lemma filter_constructs_eq_nil_iff : functions.filter (settings.constructs name) = [] ↔
    ¬ ∃ f ∈ functions, f.returnTypeName.map settings.bareName = some name := by
  simp [List.filter_eq_nil_iff, Settings.constructs]

theorem described_of_build (hg : build settings functions injectables = .ok g) :
    Described settings functions injectables g := by
  have h := wellLinked_of_build hg
  constructor
  case naming_eq => exact naming_of_build hg
  case ascending =>
    obtain ⟨rfl, _⟩ := build_eq_ok_iff.1 hg
    rw [typeNames_ofRecipes]
    exact Names.pairwise_sorted _
  case typeNames_iff => exact fun _ => mem_typeNames_of_build hg
  case provided =>
    intro n hn f hf
    rcases origin_cases hg (h.node?_of_mem hn) with ⟨f', hf', hkind, hconstructor⟩ | ⟨hnone, _⟩
    · rw [hf', Option.some.injEq] at hf
      exact ⟨hkind, hconstructor.trans hf⟩
    · simp [hnone] at hf
  case injected =>
    intro n hn hnone i hi
    rcases origin_cases hg (h.node?_of_mem hn) with ⟨f, hf, _⟩ | ⟨_, i', hi', hkind, hconstructor⟩
    · simp [hnone] at hf
    · rw [hi', Option.some.injEq] at hi
      exact ⟨hkind, hi ▸ hconstructor⟩
  case carried =>
    intro n hn
    obtain ⟨rfl, _⟩ := build_eq_ok_iff.1 hg
    obtain ⟨r, _, rfl⟩ := mem_nodes_ofRecipes hn
    rw [Node.ofRecipe, List.forall₂_map_right_iff, List.forall₂_same]
    exact fun a _ => carries_ofArgument a

/-! ### There is only one such graph -/

/-- Looking up the types in their order gives the nodes back. -/
lemma filterMap_node? (h : g.typeNames.Pairwise (· < ·)) :
    g.typeNames.filterMap g.node? = g.nodes :=
  filterMap_find?_key (h.imp fun hlt => String.ne_of_lt hlt)

namespace Described

variable (h : Described settings functions injectables g)
variable (h' : Described settings functions injectables g')
include h h'

lemma typeNames_eq : g.typeNames = g'.typeNames :=
  h.ascending.eq_of_mem_iff h'.ascending fun name => by rw [h.typeNames_iff, h'.typeNames_iff]

/-- Nodes of the same type come about in the same way. -/
lemma origin_eq (hn : n ∈ g.nodes) (hn' : n' ∈ g'.nodes) (hname : n'.typeName = n.typeName) :
    n.kind = n'.kind ∧ n.constructor = n'.constructor := by
  cases hf : (functions.filter (settings.constructs n.typeName)).getLast? with
  | some f =>
    obtain ⟨hkind, hconstructor⟩ := h.provided n hn f hf
    obtain ⟨hkind', hconstructor'⟩ := h'.provided n' hn' f (hname ▸ hf)
    exact ⟨hkind.trans hkind'.symm, hconstructor.trans hconstructor'.symm⟩
  | none =>
    rw [List.getLast?_eq_none_iff] at hf
    -- the type has to be there for some reason
    have hi : ∃ i ∈ injectables, i.typeName = n.typeName :=
      ((h.typeNames_iff _).1 (List.mem_map_of_mem hn)).resolve_right
        (filter_constructs_eq_nil_iff.1 hf)
    cases hlast : (injectables.filter (·.typeName == n.typeName)).getLast? with
    | none =>
      rw [List.getLast?_eq_none_iff, List.filter_eq_nil_iff] at hlast
      obtain ⟨i, hi, hname⟩ := hi
      simpa [hname] using hlast i hi
    | some i =>
      obtain ⟨hkind, hconstructor⟩ := h.injected n hn hf i hlast
      obtain ⟨hkind', hconstructor'⟩ := h'.injected n' hn' (hname ▸ hf) i (hname ▸ hlast)
      exact ⟨hkind.trans hkind'.symm, hconstructor.trans hconstructor'.symm⟩

/-- Both graphs have a node for the type or neither has one. -/
lemma cases_node? (name : String) : (g.node? name = none ∧ g'.node? name = none) ∨
    ∃ n n', g.node? name = some n ∧ g'.node? name = some n' := by
  have hsame : (∃ n, g.node? name = some n) ↔ ∃ n', g'.node? name = some n' := by
    rw [← mem_typeNames_iff, ← mem_typeNames_iff, h.typeNames_eq h']
  cases hn : g.node? name with
  | none =>
    refine .inl ⟨rfl, ?_⟩
    rw [Option.eq_none_iff_forall_ne_some]
    intro n' hn'
    obtain ⟨n, hn''⟩ := hsame.2 ⟨n', hn'⟩
    simp [hn] at hn''
  | some n =>
    obtain ⟨n', hn'⟩ := hsame.1 ⟨n, hn⟩
    exact .inr ⟨n, n', rfl, hn'⟩

lemma kinds_eq (name : String) :
    (g.node? name).map Node.kind = (g'.node? name).map Node.kind := by
  rcases h.cases_node? h' name with ⟨hn, hn'⟩ | ⟨n, n', hn, hn'⟩
  · rw [hn, hn']
  · have hname := (typeName_of_node? hn').trans (typeName_of_node? hn).symm
    rw [hn, hn', Option.map_some, Option.map_some,
      (h.origin_eq h' (mem_nodes_of_node? hn) (mem_nodes_of_node? hn') hname).1]

lemma node_eq (hn : n ∈ g.nodes) (hn' : n' ∈ g'.nodes) (hname : n'.typeName = n.typeName) :
    n = n' := by
  obtain ⟨hkind, hconstructor⟩ := h.origin_eq h' hn hn' hname
  have hcarried : List.Forall₂ (g'.Carries settings) n.constructor.arguments n.edges :=
    (h.carried n hn).imp fun _ _ ⟨hargument, hleads⟩ =>
      ⟨hargument, hleads.congr_kinds (h.kinds_eq h')⟩
  have hedges : n.edges = n'.edges :=
    rightUnique_carries.forall₂ hcarried (hconstructor ▸ h'.carried n' hn')
  obtain ⟨_, _, _, _⟩ := n
  obtain ⟨_, _, _, _⟩ := n'
  simp_all

/-- Two graphs that are described are the same graph. -/
theorem unique : g = g' := by
  have hnode : g.node? = g'.node? := by
    funext name
    rcases h.cases_node? h' name with ⟨hn, hn'⟩ | ⟨n, n', hn, hn'⟩
    · rw [hn, hn']
    · have hname := (typeName_of_node? hn').trans (typeName_of_node? hn).symm
      rw [hn, hn', h.node_eq h' (mem_nodes_of_node? hn) (mem_nodes_of_node? hn') hname]
  have hnodes : g.nodes = g'.nodes := by
    rw [← filterMap_node? h.ascending, ← filterMap_node? h'.ascending, h.typeNames_eq h', hnode]
  have hnaming : g.naming = g'.naming := h.naming_eq.trans h'.naming_eq.symm
  obtain ⟨_, _⟩ := g
  obtain ⟨_, _⟩ := g'
  simp_all

end Described

/-! ### Targets and parameters -/

/-- Whatever an argument takes is a node or else a parameter of the graph, never both. -/
structure SettlesArguments (g : Graph) (settings : Settings) (functions : List Signature) :
    Prop where
  /-- An edge tells the kind of the node or parameter that it leads to. -/
  kind_eq : ∀ e ∈ g.edges,
    ((g.node? e.target).or (g.parameter? e.target)).map Node.kind = some e.kind
  /-- The parameters are the types of the arguments that no node fits. -/
  parameters_iff : ∀ name, name ∈ g.parameters ↔
    ∃ n ∈ g.nodes, ∃ a ∈ n.constructor.arguments, g.Unresolved settings a ∧ a.typeName = name
  disjoint : ∀ name ∈ g.parameters, name ∉ g.typeNames
  /-- An argument of the very type that a function returns is never a parameter. -/
  returned : ∀ f ∈ functions, ∀ returned, f.returnTypeName = some returned →
    returned ∉ g.parameters ∧
      ∀ e ∈ g.edges, e.argument.typeName = returned → e.isParameter = false

lemma leadsTo_of_mem_edges (hg : build settings functions injectables = .ok g) (he : e ∈ g.edges) :
    g.LeadsTo settings e.argument e.target e.kind := by
  obtain ⟨rfl, _⟩ := build_eq_ok_iff.1 hg
  rw [mem_edges_ofRecipes he, argument_ofArgument]
  exact (carries_ofArgument e.argument).2

/-- An edge leads to a node of the recorded kind, or else to a parameter of the whole name. -/
lemma edge_cases (hg : build settings functions injectables = .ok g) (he : e ∈ g.edges) :
    (∃ n, g.node? e.target = some n ∧ n.kind = e.kind ∧ e.isParameter = false ∧
      ¬ g.Unresolved settings e.argument) ∨
    (g.Unresolved settings e.argument ∧ e.isParameter = true ∧ e.target = e.argument.typeName) := by
  have hleads := leadsTo_of_mem_edges hg he
  have hkind : ∀ {name n}, g.node? name = some n → n.kind ≠ .parameter :=
    kind_ne_parameter_of_build hg
  obtain ⟨a, target, kind⟩ := e
  dsimp only at hleads ⊢
  cases hleads with
  | whole hn =>
    refine .inl ⟨_, hn, rfl, ?_, fun hnone => by simp [hnone.1] at hn⟩
    simpa [Edge.isParameter] using hkind hn
  | bare _ hn =>
    refine .inl ⟨_, hn, rfl, ?_, fun hnone => by simp [hnone.2] at hn⟩
    simpa [Edge.isParameter] using hkind hn
  | parameter hnone => exact .inr ⟨hnone, rfl, rfl⟩

lemma mem_parameters_iff_unresolved (hg : build settings functions injectables = .ok g) :
    name ∈ g.parameters ↔ ∃ n ∈ g.nodes, ∃ a ∈ n.constructor.arguments,
      g.Unresolved settings a ∧ a.typeName = name := by
  have h := wellLinked_of_build hg
  rw [mem_parameters_iff_exists_edge]
  constructor
  · rintro ⟨e, he, hparameter, rfl⟩
    rcases edge_cases hg he with ⟨_, _, _, hnode, _⟩ | ⟨hnone, _, htarget⟩
    · simp [hnode] at hparameter
    · obtain ⟨n, hn, hne⟩ := List.mem_flatMap.1 he
      refine ⟨n, hn, e.argument, ?_, hnone, htarget.symm⟩
      rw [← h.arguments_eq n hn]
      exact List.mem_map_of_mem hne
  · rintro ⟨n, hn, a, ha, hnone, rfl⟩
    rw [← h.arguments_eq n hn] at ha
    obtain ⟨e, hne, rfl⟩ := List.mem_map.1 ha
    have he : e ∈ g.edges := List.mem_flatMap.2 ⟨n, hn, hne⟩
    rcases edge_cases hg he with ⟨_, _, _, _, hnode⟩ | ⟨_, hparameter, htarget⟩
    · exact absurd hnone hnode
    · exact ⟨e, he, hparameter, htarget⟩

/-- What a function returns has a node, under its bare name at least. -/
lemma not_unresolved_of_returned {f : Signature} {returned : String}
    (hg : build settings functions injectables = .ok g) (hf : f ∈ functions)
    (hreturned : f.returnTypeName = some returned) (htype : a.typeName = returned) :
    ¬ g.Unresolved settings a := by
  rintro ⟨_, hbare⟩
  obtain ⟨n, hn⟩ := mem_typeNames_iff.1
    ((mem_typeNames_of_build hg).2 (.inr ⟨f, hf, by rw [hreturned, Option.map_some]⟩))
  rw [htype, hn] at hbare
  cases hbare

theorem settlesArguments_of_build (hg : build settings functions injectables = .ok g) :
    g.SettlesArguments settings functions := by
  constructor
  case kind_eq =>
    intro e he
    rcases edge_cases hg he with ⟨n, hn, hkind, _⟩ | ⟨hnone, hparameter, htarget⟩
    · rw [hn, Option.some_or, Option.map_some, hkind]
    · have hmem : e.target ∈ g.parameters :=
        mem_parameters_iff_exists_edge.2 ⟨e, he, hparameter, rfl⟩
      have hkind : e.kind = .parameter := by simpa [Edge.isParameter] using hparameter
      rw [htarget, hnone.1, Option.none_or, ← htarget, parameter?, if_pos hmem, hkind]
      rfl
  case parameters_iff => exact fun _ => mem_parameters_iff_unresolved hg
  case disjoint =>
    intro name hname hnode
    obtain ⟨_, _, a, _, hnone, rfl⟩ := (mem_parameters_iff_unresolved hg).1 hname
    obtain ⟨n, hn⟩ := mem_typeNames_iff.1 hnode
    simp [hnone.1] at hn
  case returned =>
    intro f hf returned hreturned
    constructor
    · intro hname
      obtain ⟨_, _, a, _, hnone, htype⟩ := (mem_parameters_iff_unresolved hg).1 hname
      exact not_unresolved_of_returned hg hf hreturned htype hnone
    · intro e he htype
      rcases edge_cases hg he with ⟨_, _, _, hnode, _⟩ | ⟨hnone, _⟩
      · exact hnode
      · exact absurd hnone (not_unresolved_of_returned hg hf hreturned htype)

/-- The graph that is built is the one that its inputs describe, and no other graph is. -/
theorem described_iff_of_build (hg : build settings functions injectables = .ok g) :
    (∀ g', Described settings functions injectables g' ↔ g' = g) ∧
      g.SettlesArguments settings functions := by
  have h := described_of_build hg
  refine ⟨fun g' => ⟨fun h' => h'.unique h, ?_⟩, settlesArguments_of_build hg⟩
  rintro rfl
  exact h

/-- A client that is provided twice, under two spellings, and injectable besides; a store declared
twice; arguments by the whole name, by the bare one and as it is returned, and two parameters. -/
theorem described_of_shadowed_client :
    let functions : List Signature :=
      [{ name := "provideClient", returnTypeName := some "Client" },
        { name := "provideNothing" },
        { name := "provideAnyClient", arguments := [⟨"store", none, "Store"⟩],
          returnTypeName := some "any Client" }]
    let injectables : List Injectable :=
      [⟨"Store", { name := "init" }⟩,
        ⟨"Client", { name := "init", arguments := [⟨"url", none, "URL"⟩] }⟩,
        ⟨"App", { name := "init", arguments := [⟨"client", none, "any Client"⟩,
          ⟨"backup", none, "Client"⟩, ⟨"title", none, "some Title"⟩,
          ⟨"store", none, "some Store"⟩] }⟩,
        ⟨"Store", { name := "make", arguments := [⟨"path", none, "String"⟩] }⟩]
    let g := ofRecipes {} (Recipe.all {} functions injectables)
    build {} functions injectables = .ok g ∧
      g.typeNames = ["App", "Client", "Store"] ∧ g.parameters = ["String", "some Title"] ∧
      (g.node? "Client").map (fun n => (n.kind, n.constructor.name)) =
        some (.provided, "provideAnyClient") ∧
      (g.node? "Store").map (fun n => (n.kind, n.constructor.name)) = some (.injected, "make") ∧
      (g.edgesOf "App").map Edge.target = ["Client", "Client", "some Title", "Store"] ∧
      ((∀ g', Described {} functions injectables g' ↔ g' = g) ∧
        g.SettlesArguments {} functions) := by
  intro functions injectables g
  have hg : build {} functions injectables = .ok g := by decide +kernel
  exact ⟨hg, by decide +kernel, by decide +kernel, by decide +kernel, by decide +kernel,
    by decide +kernel, described_iff_of_build hg⟩

end Wiring.Graph
