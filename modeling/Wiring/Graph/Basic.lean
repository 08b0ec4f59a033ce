import Wiring.Links
import Wiring.Manifest
import Wiring.Settings

/-!
# Dependency graphs

A dependency graph tells how the types within reach of a provider interface are constructed: by
a provide function, or else by the constructor of an injectable type. Each argument of a
constructor is an edge to the node of its type; an argument whose type no node constructs is an
edge to a parameter, which has to be passed in.

A graph is refused if constructing a type takes a value of the type itself. The links are laid
from node to node in ascending order, each node's arguments in their order.
-/

namespace Wiring

/-- A type whose construction takes a value of itself, closed by this pair of types. -/
structure CircularDependency where
  source : String
  target : String
deriving DecidableEq, Repr

/-- The message for the user. -/
def CircularDependency.message (e : CircularDependency) : String :=
  "Could not resolve dependency graph due to a circular dependency between '" ++ e.source
    ++ "' and '" ++ e.target ++ "'"

/-! ### Recipes -/

/-- How a value comes about. -/
inductive NodeKind
  /-- A provide function of the provider interface returns it. -/
  | provided
  /-- The constructor of an injectable type builds it. -/
  | injected
  /-- Nothing constructs it. -/
  | parameter
deriving DecidableEq, Repr, Inhabited

/-- A way to construct a type. -/
structure Recipe where
  typeName : String
  kind : NodeKind
  constructor : Signature
deriving DecidableEq, Repr, Inhabited

namespace Recipe

/-- An injectable type is built by its constructor. -/
def ofInjectable (i : Injectable) : Recipe :=
  ⟨i.typeName, .injected, i.constructor⟩

/-- A provide function constructs the type that its return type speaks of. -/
def ofFunction? (settings : Settings) (f : Signature) : Option Recipe :=
  f.returnTypeName.map fun returned => ⟨settings.bareName returned, .provided, f⟩

/-- All recipes, the weaker ones first. -/
def all (settings : Settings) (functions : List Signature) (injectables : List Injectable) :
    List Recipe :=
  injectables.map ofInjectable ++ functions.filterMap (ofFunction? settings)

/-- The recipe in force for a type: the last one. -/
def find? (recipes : List Recipe) (typeName : String) : Option Recipe :=
  recipes.findRev? (·.typeName == typeName)

theorem typeName_of_find? {recipes : List Recipe} {typeName : String} {r : Recipe}
    (h : find? recipes typeName = some r) : r.typeName = typeName := by
  rw [find?, List.findRev?_eq_find?_reverse] at h
  simpa using List.find?_some h

theorem isSome_find? {recipes : List Recipe} {typeName : String} :
    (find? recipes typeName).isSome ↔ typeName ∈ recipes.map Recipe.typeName := by
  simp [find?]

/-- The recipe for an argument type, by its name or else by the type that the name speaks of. -/
def forArgument? (settings : Settings) (recipes : List Recipe) (typeName : String) :
    Option Recipe :=
  (find? recipes typeName).or (find? recipes (settings.bareName typeName))

end Recipe

/-! ### Nodes and edges -/

/-- An argument of a constructor, with the node or parameter that it takes. -/
structure Edge where
  argument : Argument
  target : String
  kind : NodeKind
deriving DecidableEq, Repr, Inhabited

namespace Edge

/-- What makes an edge the same as another one. -/
def identity (e : Edge) : (String × String × String) × String × NodeKind :=
  (e.argument.identity, e.target, e.kind)

instance : BEq Edge where
  beq e f := e.target == f.target && e.kind == f.kind && e.argument == f.argument

theorem beq_iff {e f : Edge} : (e == f) = true ↔ e.identity = f.identity := by
  change (e.target == f.target && e.kind == f.kind && e.argument == f.argument) = true ↔ _
  simp only [Bool.and_eq_true, beq_iff_eq, Argument.beq_iff, identity, Prod.mk.injEq]
  exact ⟨fun ⟨⟨ht, hk⟩, ha⟩ => ⟨ha, ht, hk⟩, fun ⟨ha, ht, hk⟩ => ⟨⟨ht, hk⟩, ha⟩⟩

instance : EquivBEq Edge where
  rfl := beq_iff.2 rfl
  symm h := beq_iff.2 (beq_iff.1 h).symm
  trans h h' := beq_iff.2 ((beq_iff.1 h).trans (beq_iff.1 h'))

/-- Whether the value has to be passed in. -/
def isParameter (e : Edge) : Bool :=
  e.kind == .parameter

/-- The edge of an argument. -/
def ofArgument (settings : Settings) (recipes : List Recipe) (a : Argument) : Edge :=
  match Recipe.forArgument? settings recipes a.typeName with
  | some recipe => ⟨a, recipe.typeName, recipe.kind⟩
  | none => ⟨a, a.typeName, .parameter⟩

end Edge

/-- A type with its constructor and what the constructor takes. -/
structure Node where
  typeName : String
  kind : NodeKind
  constructor : Signature
  edges : List Edge := []
deriving DecidableEq, Repr, Inhabited

namespace Node

/-- The node of a recipe. -/
def ofRecipe (settings : Settings) (recipes : List Recipe) (r : Recipe) : Node :=
  ⟨r.typeName, r.kind, r.constructor,
    r.constructor.arguments.map (Edge.ofArgument settings recipes)⟩

/-- The node of a type that has to be passed in. -/
def ofParameter (typeName : String) : Node :=
  ⟨typeName, .parameter, { name := "" }, []⟩

/-- The type that generated functions return; a provide function keeps the one it declares. -/
def returnTypeName (n : Node) : String :=
  match n.kind, n.constructor.returnTypeName with
  | .provided, some declared => declared
  | _, _ => n.typeName

end Node

/-! ### Graphs -/

/-- The types within reach of a provider interface, in ascending order. -/
structure Graph where
  nodes : List Node
  naming : Naming
deriving DecidableEq, Repr, Inhabited

namespace Graph

/-- The names of the types that are constructed, in ascending order. -/
def typeNames (g : Graph) : List String :=
  g.nodes.map Node.typeName

/-- The node of a type. -/
def node? (g : Graph) (typeName : String) : Option Node :=
  g.nodes.find? (·.typeName == typeName)

/-- What the constructor of a type takes. -/
def edgesOf (g : Graph) (typeName : String) : List Edge :=
  ((g.node? typeName).map Node.edges).getD []

/-- The edges of all nodes. -/
def edges (g : Graph) : List Edge :=
  g.nodes.flatMap Node.edges

/-- The types that have to be passed in, in ascending order. -/
def parameters (g : Graph) : List String :=
  Names.sorted ((g.edges.filter Edge.isParameter).map Edge.target)

/-- The node of a type that has to be passed in. -/
def parameter? (g : Graph) (typeName : String) : Option Node :=
  if typeName ∈ g.parameters then some (.ofParameter typeName) else none

/-- The links from node to node, in the order in which they are laid. -/
def links (g : Graph) : List Link :=
  g.nodes.flatMap fun n =>
    (n.edges.filter fun e => !e.isParameter).map fun e => ⟨n.typeName, e.target⟩

/-- The graph of all recipes, each type with the recipe in force for it. -/
def ofRecipes (settings : Settings) (recipes : List Recipe) : Graph where
  nodes := (Names.sorted (recipes.map Recipe.typeName)).filterMap fun typeName =>
    (Recipe.find? recipes typeName).map (Node.ofRecipe settings recipes)
  naming := settings.naming

theorem typeNames_ofRecipes (settings : Settings) (recipes : List Recipe) :
    (ofRecipes settings recipes).typeNames = Names.sorted (recipes.map Recipe.typeName) := by
  suffices ∀ names : List String, (∀ name ∈ names, name ∈ recipes.map Recipe.typeName) →
      (names.filterMap fun name =>
        (Recipe.find? recipes name).map (Node.ofRecipe settings recipes)).map Node.typeName = names
    from this _ fun _ hname => Names.mem_sorted.1 hname
  intro names hnames
  induction names with
  | nil => rfl
  | cons name names ih =>
    obtain ⟨r, hr⟩ := Option.isSome_iff_exists.1
      (Recipe.isSome_find?.2 (hnames name List.mem_cons_self))
    rw [List.filterMap_cons_some (by rw [hr]; rfl), List.map_cons,
      ih fun n hn => hnames n (List.mem_cons_of_mem _ hn)]
    exact congrArg (· :: names) (Recipe.typeName_of_find? hr)

/-- The graph of provide functions and injectable types, unless a construction is circular. -/
def build (settings : Settings) (functions : List Signature) (injectables : List Injectable) :
    Except CircularDependency Graph :=
  let graph := ofRecipes settings (Recipe.all settings functions injectables)
  match Link.firstClosing graph.links with
  | some link => .error ⟨link.source, link.target⟩
  | none => .ok graph

end Graph

end Wiring
