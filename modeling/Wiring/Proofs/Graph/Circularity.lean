import Wiring.Proofs.Graph.Linking

/-!
# Circular constructions

Which types take which others can be said of the functions and the injectable types, without the
graph (`Takes`). A graph is refused exactly if types take each other in a circle, and the pair that
is reported is the first one that closes a circle with those before it
(`build_ok_iff_and_error_iff`).
-/

namespace Wiring.Graph

open Link Relation

variable {settings : Settings} {functions : List Signature} {injectables : List Injectable}
variable {recipes : List Recipe} {source target : String}

/-! ### Which types take which -/

/-- The types that something constructs: the injectable ones and those that functions return. -/
def constructedNames (settings : Settings) (functions : List Signature)
    (injectables : List Injectable) : List String :=
  injectables.map Injectable.typeName ++
    functions.filterMap fun f => f.returnTypeName.map settings.bareName

/-- What constructs a type: the last function whose return type speaks of it, or else the
constructor of the last injectable type of its name. -/
def constructorOf? (settings : Settings) (functions : List Signature)
    (injectables : List Injectable) (name : String) : Option Signature :=
  (functions.filter (settings.constructs name)).getLast?.or
    ((injectables.filter (·.typeName == name)).getLast?.map Injectable.constructor)

/-- The type that an argument takes: the one of its whole name if something constructs that, or else
the one of its bare name. -/
def taken? (settings : Settings) (functions : List Signature) (injectables : List Injectable)
    (a : Argument) : Option String :=
  [a.typeName, settings.bareName a.typeName].find?
    (constructedNames settings functions injectables).contains

/-- The constructor of the one type has an argument that takes the other. -/
def Takes (settings : Settings) (functions : List Signature) (injectables : List Injectable)
    (source target : String) : Prop :=
  ∃ f a, constructorOf? settings functions injectables source = some f ∧ a ∈ f.arguments ∧
    taken? settings functions injectables a = some target

/-- Every type with each type that an argument of its constructor takes: the types in ascending
order, the arguments of a type as they are declared. -/
def takings (settings : Settings) (functions : List Signature) (injectables : List Injectable) :
    List Link :=
  (Names.sorted (constructedNames settings functions injectables)).flatMap fun name =>
    match constructorOf? settings functions injectables name with
    | none => []
    | some f =>
      (f.arguments.filterMap (taken? settings functions injectables)).map (Link.mk name)

lemma takes_of_mem_takings (h : ⟨source, target⟩ ∈ takings settings functions injectables) :
    Takes settings functions injectables source target := by
  obtain ⟨name, _, hname⟩ := List.mem_flatMap.1 h
  cases hf : constructorOf? settings functions injectables name with
  | none => simp [hf] at hname
  | some f =>
    simp only [hf, List.mem_map, List.mem_filterMap, Link.mk.injEq] at hname
    obtain ⟨_, ⟨a, ha, htaken⟩, rfl, rfl⟩ := hname
    exact ⟨f, a, hf, ha, htaken⟩

/-! ### The recipes in these words -/

lemma map_typeName_all : (Recipe.all settings functions injectables).map Recipe.typeName =
    constructedNames settings functions injectables := by
  rw [Recipe.all, constructedNames, List.map_append, List.map_map, List.map_filterMap]
  congr 1
  apply List.filterMap_congr
  intro f _
  rw [Recipe.ofFunction?, Option.map_map]
  rfl

lemma map_constructor_find?_all (name : String) :
    (Recipe.find? (Recipe.all settings functions injectables) name).map Recipe.constructor =
      constructorOf? settings functions injectables name := by
  rw [Recipe.find?_all, constructorOf?, Option.map_or, Option.map_map, Option.map_map]
  congr 1
  exact congrFun Option.map_id _

lemma map_typeName_find?_all (name : String) :
    (Recipe.find? (Recipe.all settings functions injectables) name).map Recipe.typeName =
      [name].find? (constructedNames settings functions injectables).contains := by
  rw [← map_typeName_all, List.find?_singleton]
  split
  · next hname =>
    obtain ⟨r, hr⟩ := Option.isSome_iff_exists.1
      (Recipe.isSome_find?.2 (List.contains_iff_mem.1 hname))
    rw [hr, Option.map_some, Recipe.typeName_of_find? hr]
  · next hname =>
    rw [Option.map_eq_none_iff, ← Option.not_isSome_iff_eq_none, Recipe.isSome_find?]
    exact fun hmem => hname (List.contains_iff_mem.2 hmem)

lemma map_typeName_forArgument?_all (a : Argument) :
    (Recipe.forArgument? settings (Recipe.all settings functions injectables) a.typeName).map
      Recipe.typeName = taken? settings functions injectables a := by
  rw [Recipe.forArgument?, Option.map_or, map_typeName_find?_all, map_typeName_find?_all,
    ← List.find?_append]
  rfl

/-! ### The links of a graph are its takings -/

/-- The edges of a node that lead to nodes, read off the arguments. -/
lemma map_target_ofArgument (hrecipes : ∀ r ∈ recipes, r.kind ≠ .parameter)
    (arguments : List Argument) :
    ((arguments.map (Edge.ofArgument settings recipes)).filter fun e => !e.isParameter).map
        Edge.target =
      arguments.filterMap fun a =>
        (Recipe.forArgument? settings recipes a.typeName).map Recipe.typeName := by
  induction arguments with
  | nil => rfl
  | cons a arguments ih =>
    rw [List.map_cons, List.filterMap_cons, List.filter_cons, isParameter_ofArgument hrecipes]
    cases hr : Recipe.forArgument? settings recipes a.typeName with
    | none => simpa using ih
    | some taken => simpa [Edge.ofArgument, hr] using ih

theorem links_ofRecipes : (ofRecipes settings (Recipe.all settings functions injectables)).links =
    takings settings functions injectables := by
  have htargets : ∀ arguments : List Argument,
      ((arguments.map (Edge.ofArgument settings (Recipe.all settings functions injectables))).filter
          fun e => !e.isParameter).map Edge.target =
        arguments.filterMap (taken? settings functions injectables) := by
    intro arguments
    rw [map_target_ofArgument fun _ => Recipe.kind_ne_parameter]
    exact List.filterMap_congr fun a _ => map_typeName_forArgument?_all a
  simp only [links, ofRecipes, takings, map_typeName_all]
  induction Names.sorted (constructedNames settings functions injectables) with
  | nil => rfl
  | cons name names ih =>
    rw [List.filterMap_cons, List.flatMap_cons, ← map_constructor_find?_all]
    cases hr : Recipe.find? (Recipe.all settings functions injectables) name with
    | none => simpa using ih
    | some r =>
      simp only [Option.map_some, List.flatMap_cons, ih, Node.ofRecipe,
        Recipe.typeName_of_find? hr, ← htargets, List.map_map]
      rfl

/-! ### What is refused -/

lemma build_eq_error_iff {e : CircularDependency} :
    build settings functions injectables = .error e ↔
      firstClosing (takings settings functions injectables) = some ⟨e.source, e.target⟩ := by
  rw [build, firstClosing_eq_some_iff, ← links_ofRecipes]
  refine refused_iff.trans ?_
  constructor
  · rintro ⟨link, hlink, rfl⟩
    exact hlink
  · exact fun hlink => ⟨_, hlink, rfl⟩

lemma build_fails_iff : (∃ e, build settings functions injectables = .error e) ↔
    Cyclic (takings settings functions injectables) := by
  constructor
  · rintro ⟨e, he⟩
    rw [build_eq_error_iff] at he
    by_contra hacyclic
    rw [firstClosing_eq_none_iff.2 hacyclic] at he
    cases he
  · intro hcyclic
    cases hfirst : firstClosing (takings settings functions injectables) with
    | none => exact absurd hcyclic (firstClosing_eq_none_iff.1 hfirst)
    | some link => exact ⟨⟨link.source, link.target⟩, build_eq_error_iff.2 hfirst⟩

/-- A graph is refused exactly if types take each other in a circle. The reported pair is the last
one of the shortest prefix of the takings with a circle: the first type takes the second, and the
second leads back to the first. -/
theorem build_ok_iff_and_error_iff (settings : Settings) (functions : List Signature)
    (injectables : List Injectable) :
    let pairs := takings settings functions injectables
    ((∃ g, build settings functions injectables = .ok g) ↔ ¬ Cyclic pairs) ∧
      ∀ e, (build settings functions injectables = .error e ↔
          ClosesFirst pairs ⟨e.source, e.target⟩) ∧
        (build settings functions injectables = .error e →
          Takes settings functions injectables e.source e.target ∧
            ReflTransGen (Step pairs) e.target e.source) := by
  intro pairs
  have hlinks : (ofRecipes settings (Recipe.all settings functions injectables)).links = pairs :=
    links_ofRecipes
  constructor
  · constructor
    · rintro ⟨g, hg⟩
      obtain ⟨rfl, hacyclic⟩ := build_eq_ok_iff.1 hg
      rwa [hlinks] at hacyclic
    · intro hacyclic
      exact ⟨_, build_eq_ok_iff.2 ⟨rfl, by rwa [hlinks]⟩⟩
  · intro e
    constructor
    · rw [build_eq_error_iff, firstClosing_eq_some_iff]
    · intro h
      have hcloses := firstClosing_eq_some_iff.1 (build_eq_error_iff.1 h)
      obtain ⟨hmem, hback⟩ := hcloses.returns
      exact ⟨takes_of_mem_takings hmem, hback⟩

/-- Of three types in a circle the last one in order is reported with the type that it takes. -/
example : build {} [] [⟨"A", { name := "init", arguments := [⟨"b", none, "B"⟩] }⟩,
    ⟨"B", { name := "init", arguments := [⟨"c", none, "any C"⟩] }⟩,
    ⟨"C", { name := "init", arguments := [⟨"a", none, "A"⟩] }⟩] = .error ⟨"C", "A"⟩ := by
  cbv

end Wiring.Graph
