import Mathlib.Data.List.Nodup
import Wiring.Proofs.Circles

/-!
# The links of a graph

A graph that has been built is well linked (`wellLinked_of_build`): every type has one node, every
argument of its constructor one edge, an edge leads to a node unless it has to be passed in, and
no construction is circular. A node comes from the last function that constructs its type, or else
from the last injectable type of its name (`origin_cases`).
-/

namespace Wiring

open Link

variable {settings : Settings} {functions : List Signature} {injectables : List Injectable}
variable {recipes : List Recipe} {name : String}

/-! ### Recipes -/

/-- Whether the return type of a function speaks of the type. -/
def Settings.constructs (settings : Settings) (typeName : String) (f : Signature) : Bool :=
  f.returnTypeName.map settings.bareName == some typeName

namespace Recipe

lemma kind_ne_parameter {r : Recipe} (h : r ∈ all settings functions injectables) :
    r.kind ≠ .parameter := by
  rw [all, List.mem_append] at h
  rcases h with h | h
  · obtain ⟨i, _, rfl⟩ := List.mem_map.1 h
    simp [ofInjectable]
  · obtain ⟨f, _, hf⟩ := List.mem_filterMap.1 h
    obtain ⟨returned, _, rfl⟩ := Option.map_eq_some_iff.1 hf
    simp

lemma mem_of_find? {r : Recipe} (h : find? recipes name = some r) : r ∈ recipes := by
  rw [find?, List.findRev?_eq_find?_reverse] at h
  exact List.mem_reverse.1 (List.mem_of_find?_eq_some h)

lemma find?_eq_getLast? : find? recipes name = (recipes.filter (·.typeName == name)).getLast? := by
  rw [find?, List.findRev?_eq_find?_reverse, List.getLast?_filter]

lemma filter_filterMap_ofFunction? :
    (functions.filterMap (ofFunction? settings)).filter (·.typeName == name) =
      (functions.filter (settings.constructs name)).map (⟨name, .provided, ·⟩) := by
  induction functions with
  | nil => rfl
  | cons f functions ih =>
    rw [List.filterMap_cons, List.filter_cons, Settings.constructs, ofFunction?]
    cases f.returnTypeName with
    | none => simpa using ih
    | some returned =>
      by_cases hname : settings.bareName returned = name
      · simp [hname, ih]
      · simp [hname, ih]

/-- The last function that constructs a type is in force, or else the last injectable type. -/
theorem find?_all : find? (all settings functions injectables) name =
    ((functions.filter (settings.constructs name)).getLast?.map (⟨name, .provided, ·⟩)).or
      ((injectables.filter (·.typeName == name)).getLast?.map ofInjectable) := by
  rw [find?_eq_getLast?, all, List.filter_append, filter_filterMap_ofFunction?, List.filter_map,
    List.getLast?_append, List.getLast?_map, List.getLast?_map]
  rfl

lemma find?_of_forArgument? {r : Recipe} (h : forArgument? settings recipes name = some r) :
    find? recipes r.typeName = some r := by
  rw [forArgument?, Option.or_eq_some_iff] at h
  rcases h with h | ⟨_, h⟩
  · rwa [typeName_of_find? h]
  · rwa [typeName_of_find? h]

lemma find?_eq_none_of_forArgument? (h : forArgument? settings recipes name = none) :
    find? recipes name = none := by
  rw [forArgument?, Option.or_eq_none_iff] at h
  exact h.1

end Recipe

/-! ### Looking up nodes -/

namespace Graph

variable {g : Graph} {n : Node} {e f : Edge} {t d : String}

lemma mem_nodes_of_node? (h : g.node? t = some n) : n ∈ g.nodes :=
  List.mem_of_find?_eq_some h

lemma typeName_of_node? (h : g.node? t = some n) : n.typeName = t := by
  simpa using List.find?_some h

lemma mem_typeNames_iff : t ∈ g.typeNames ↔ ∃ n, g.node? t = some n := by
  rw [← Option.isSome_iff_exists, node?, List.find?_isSome]
  simp [typeNames]

lemma edgesOf_of_node? (h : g.node? t = some n) : g.edgesOf t = n.edges := by
  simp [edgesOf, h]

lemma exists_node?_of_mem_edgesOf (h : e ∈ g.edgesOf t) :
    ∃ n, g.node? t = some n ∧ e ∈ n.edges := by
  cases hn : g.node? t with
  | none => simp [edgesOf, hn] at h
  | some n => exact ⟨n, rfl, by rwa [edgesOf_of_node? hn] at h⟩

lemma mem_edges_of_mem_edgesOf (h : e ∈ g.edgesOf t) : e ∈ g.edges := by
  obtain ⟨n, hn, he⟩ := exists_node?_of_mem_edgesOf h
  exact List.mem_flatMap.2 ⟨n, mem_nodes_of_node? hn, he⟩

lemma edgesOf_eq_nil (h : t ∉ g.typeNames) : g.edgesOf t = [] := by
  have hnone : g.node? t = none := by
    rw [Option.eq_none_iff_forall_ne_some]
    exact fun n hn => h (mem_typeNames_iff.2 ⟨n, hn⟩)
  simp [edgesOf, hnone]

lemma mem_parameters_iff_exists_edge :
    name ∈ g.parameters ↔ ∃ e ∈ g.edges, e.isParameter = true ∧ e.target = name := by
  simp only [parameters, Names.mem_sorted, List.mem_map, List.mem_filter, and_assoc]

/-- What holds of every graph that has been built. -/
structure WellLinked (g : Graph) : Prop where
  nodup_typeNames : g.typeNames.Nodup
  /-- Every argument of a constructor has an edge. -/
  arguments_eq : ∀ n ∈ g.nodes, n.edges.map Edge.argument = n.constructor.arguments
  target_mem_iff : ∀ e ∈ g.edges, e.target ∈ g.typeNames ↔ e.isParameter = false
  /-- The argument decides where its edge leads. -/
  beq_of_argument : ∀ e ∈ g.edges, ∀ f ∈ g.edges,
    (e.argument == f.argument) = true → (e == f) = true
  not_cyclic : ¬ Cyclic g.links

namespace WellLinked

lemma node?_of_mem (h : g.WellLinked) (hn : n ∈ g.nodes) : g.node? n.typeName = some n :=
  Sameness.find?_key_eq_some hn fun _ hm => List.inj_on_of_nodup_map h.nodup_typeNames hm hn

/-- A link leads from a type to another one that its constructor takes. -/
theorem step_links_iff (h : g.WellLinked) :
    Step g.links t d ↔ ∃ e ∈ g.edgesOf t, e.isParameter = false ∧ e.target = d := by
  simp only [Step, links, List.mem_flatMap, List.mem_map, List.mem_filter, Link.mk.injEq]
  constructor
  · rintro ⟨n, hn, e, ⟨he, hparameter⟩, rfl, rfl⟩
    rw [edgesOf_of_node? (h.node?_of_mem hn)]
    exact ⟨e, he, by simpa using hparameter, rfl⟩
  · rintro ⟨e, he, hparameter, rfl⟩
    obtain ⟨n, hn, he⟩ := exists_node?_of_mem_edgesOf he
    exact ⟨n, mem_nodes_of_node? hn, e, ⟨he, by simpa using hparameter⟩, typeName_of_node? hn, rfl⟩

lemma target_mem_typeNames (h : g.WellLinked) (he : e ∈ g.edgesOf t) (hp : e.isParameter = false) :
    e.target ∈ g.typeNames :=
  (h.target_mem_iff e (mem_edges_of_mem_edgesOf he)).2 hp

lemma links_target_mem (h : g.WellLinked) : ∀ link ∈ g.links, link.target ∈ g.typeNames := by
  intro link hlink
  have hstep : Step g.links link.source link.target := hlink
  obtain ⟨e, he, hp, htarget⟩ := h.step_links_iff.1 hstep
  rw [← htarget]
  exact h.target_mem_typeNames he hp

end WellLinked

/-! ### Graphs of recipes -/

theorem node?_ofRecipes : (ofRecipes settings recipes).node? name =
    (Recipe.find? recipes name).map (Node.ofRecipe settings recipes) := by
  cases hr : Recipe.find? recipes name with
  | none =>
    have hname : name ∉ (ofRecipes settings recipes).typeNames := by
      rw [typeNames_ofRecipes, Names.mem_sorted, ← Recipe.isSome_find?, hr]
      simp
    rw [Option.map_none, Option.eq_none_iff_forall_ne_some]
    exact fun n hn => hname (mem_typeNames_iff.2 ⟨n, hn⟩)
  | some r =>
    have hname : name ∈ (ofRecipes settings recipes).typeNames := by
      rw [typeNames_ofRecipes, Names.mem_sorted, ← Recipe.isSome_find?, hr]
      rfl
    obtain ⟨n, hn⟩ := mem_typeNames_iff.1 hname
    obtain ⟨other, _, hother⟩ := List.mem_filterMap.1 (mem_nodes_of_node? hn)
    obtain ⟨r', hr', rfl⟩ := Option.map_eq_some_iff.1 hother
    -- the found node stands under its own name, which leaves only the recipe of `name`
    have hsame : other = name :=
      (Recipe.typeName_of_find? hr').symm.trans (typeName_of_node? hn)
    rw [hsame, hr] at hr'
    rw [hn, ← Option.some.inj hr', Option.map_some]

lemma mem_nodes_ofRecipes (h : n ∈ (ofRecipes settings recipes).nodes) :
    ∃ r, Recipe.find? recipes r.typeName = some r ∧ n = Node.ofRecipe settings recipes r := by
  obtain ⟨other, _, hother⟩ := List.mem_filterMap.1 h
  obtain ⟨r, hr, rfl⟩ := Option.map_eq_some_iff.1 hother
  exact ⟨r, by rwa [Recipe.typeName_of_find? hr], rfl⟩

@[simp] lemma argument_ofArgument (a : Argument) :
    (Edge.ofArgument settings recipes a).argument = a := by
  rw [Edge.ofArgument]
  split <;> rfl

lemma mem_edges_ofRecipes (h : e ∈ (ofRecipes settings recipes).edges) :
    e = Edge.ofArgument settings recipes e.argument := by
  obtain ⟨n, hn, he⟩ := List.mem_flatMap.1 h
  obtain ⟨r, _, rfl⟩ := mem_nodes_ofRecipes hn
  obtain ⟨a, _, rfl⟩ := List.mem_map.1 he
  rw [argument_ofArgument]

lemma nodup_typeNames_ofRecipes : (ofRecipes settings recipes).typeNames.Nodup := by
  rw [typeNames_ofRecipes]
  exact (Names.pairwise_sorted _).imp fun h => String.ne_of_lt h

/-- The edge of an argument leads to a node unless no recipe fits the argument. -/
lemma isParameter_ofArgument (hrecipes : ∀ r ∈ recipes, r.kind ≠ .parameter) {a : Argument} :
    (Edge.ofArgument settings recipes a).isParameter =
      (Recipe.forArgument? settings recipes a.typeName).isNone := by
  rw [Edge.ofArgument]
  cases hr : Recipe.forArgument? settings recipes a.typeName with
  | none => rfl
  | some r =>
    have hkind := hrecipes r (Recipe.mem_of_find? (Recipe.find?_of_forArgument? hr))
    simpa [Edge.isParameter] using hkind

lemma target_mem_ofRecipes_iff (hrecipes : ∀ r ∈ recipes, r.kind ≠ .parameter) {a : Argument} :
    (Edge.ofArgument settings recipes a).target ∈ (ofRecipes settings recipes).typeNames ↔
      (Edge.ofArgument settings recipes a).isParameter = false := by
  rw [isParameter_ofArgument hrecipes, typeNames_ofRecipes, Names.mem_sorted, ← Recipe.isSome_find?,
    Edge.ofArgument]
  cases hr : Recipe.forArgument? settings recipes a.typeName with
  | none => simp [Recipe.find?_eq_none_of_forArgument? hr]
  | some r => simp [Recipe.find?_of_forArgument? hr]

lemma ofArgument_beq {a b : Argument} (h : (a == b) = true) :
    (Edge.ofArgument settings recipes a == Edge.ofArgument settings recipes b) = true := by
  have htype : a.typeName = b.typeName := (Argument.beq_iff_fields.1 h).2.2
  rw [Edge.beq_iff]
  simp only [Edge.ofArgument, htype]
  split <;> simp [Edge.identity, Argument.beq_iff.1 h]

theorem build_eq_ok_iff : build settings functions injectables = .ok g ↔
    g = ofRecipes settings (Recipe.all settings functions injectables) ∧ ¬ Cyclic g.links := by
  rw [build]
  refine accepted_iff.trans ?_
  constructor
  · rintro ⟨rfl, hacyclic⟩
    exact ⟨rfl, hacyclic⟩
  · rintro ⟨rfl, hacyclic⟩
    exact ⟨rfl, hacyclic⟩

lemma naming_of_build (hg : build settings functions injectables = .ok g) :
    g.naming = settings.naming := by
  obtain ⟨rfl, _⟩ := build_eq_ok_iff.1 hg
  rfl

lemma mem_typeNames_of_build (hg : build settings functions injectables = .ok g) :
    t ∈ g.typeNames ↔ (∃ i ∈ injectables, i.typeName = t) ∨
      ∃ f ∈ functions, f.returnTypeName.map settings.bareName = some t := by
  obtain ⟨rfl, _⟩ := build_eq_ok_iff.1 hg
  rw [typeNames_ofRecipes, Names.mem_sorted, Recipe.all, List.map_append, List.mem_append]
  refine or_congr ?_ ?_
  · simp [Recipe.ofInjectable]
  · simp only [List.mem_map, List.mem_filterMap, Recipe.ofFunction?]
    constructor
    · rintro ⟨r, ⟨f, hf, hr⟩, rfl⟩
      obtain ⟨returned, hreturned, rfl⟩ := Option.map_eq_some_iff.1 hr
      exact ⟨f, hf, by rw [hreturned, Option.map_some]⟩
    · rintro ⟨f, hf, ht⟩
      obtain ⟨returned, hreturned, rfl⟩ := Option.map_eq_some_iff.1 ht
      exact ⟨_, ⟨f, hf, by rw [hreturned, Option.map_some]⟩, rfl⟩

/-- A node comes from the last function that constructs its type, or else from the last injectable
type of its name. -/
theorem origin_cases (hg : build settings functions injectables = .ok g) (hn : g.node? t = some n) :
    (∃ f, (functions.filter (settings.constructs t)).getLast? = some f ∧
      n.kind = .provided ∧ n.constructor = f) ∨
    (functions.filter (settings.constructs t) = [] ∧
      ∃ i, (injectables.filter (·.typeName == t)).getLast? = some i ∧
        n.kind = .injected ∧ n.constructor = i.constructor) := by
  obtain ⟨rfl, _⟩ := build_eq_ok_iff.1 hg
  rw [node?_ofRecipes, Recipe.find?_all] at hn
  cases hf : (functions.filter (settings.constructs t)).getLast? with
  | some f =>
    rw [hf] at hn
    cases hn
    exact .inl ⟨f, rfl, rfl, rfl⟩
  | none =>
    rw [hf, Option.map_none, Option.none_or, Option.map_map] at hn
    obtain ⟨i, hi, rfl⟩ := Option.map_eq_some_iff.1 hn
    exact .inr ⟨List.getLast?_eq_none_iff.1 hf, i, hi, rfl, rfl⟩

lemma kind_ne_parameter_of_build (hg : build settings functions injectables = .ok g)
    (hn : g.node? t = some n) : n.kind ≠ .parameter := by
  rcases origin_cases hg hn with ⟨_, _, hkind, _⟩ | ⟨_, _, _, hkind, _⟩
  · simp [hkind]
  · simp [hkind]

/-- The node of a type is built by the last function that constructs the type. -/
lemma provided_of_getLast? {f : Signature} (hg : build settings functions injectables = .ok g)
    (hf : (functions.filter (settings.constructs t)).getLast? = some f) :
    ∃ n, g.node? t = some n ∧ n.kind = .provided ∧ n.constructor = f := by
  obtain ⟨rfl, _⟩ := build_eq_ok_iff.1 hg
  rw [node?_ofRecipes, Recipe.find?_all, hf]
  exact ⟨_, rfl, rfl, rfl⟩

theorem wellLinked_of_build (h : build settings functions injectables = .ok g) : g.WellLinked := by
  obtain ⟨rfl, hacyclic⟩ := build_eq_ok_iff.1 h
  have hrecipes : ∀ r ∈ Recipe.all settings functions injectables, r.kind ≠ .parameter :=
    fun _ => Recipe.kind_ne_parameter
  constructor
  case nodup_typeNames => exact nodup_typeNames_ofRecipes
  case arguments_eq =>
    intro n hn
    obtain ⟨r, _, rfl⟩ := mem_nodes_ofRecipes hn
    simp only [Node.ofRecipe, List.map_map]
    exact (List.map_congr_left fun a _ => argument_ofArgument a).trans (List.map_id _)
  case target_mem_iff =>
    intro e he
    rw [mem_edges_ofRecipes he]
    exact target_mem_ofRecipes_iff hrecipes
  case beq_of_argument =>
    intro e he f hf hsame
    rw [mem_edges_ofRecipes he, mem_edges_ofRecipes hf]
    exact ofArgument_beq hsame
  case not_cyclic => exact hacyclic

end Graph

end Wiring
