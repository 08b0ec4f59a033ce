import Wiring.Proofs.Graph.Description
import Wiring.Proofs.Graph.Expansion

/-!
# Graphs that agree

Two graphs may have the same nodes for some types, and nothing that the constructors of these types
take may lead away from them (`Graph.AgreeOn`). Everything that is generated for one of these types
is then the same in both graphs (`AgreeOn.sameRoutines`).

One more injectable type leaves every type alone that reaches no argument that could stand for it
(`sameRoutines_of_insert`). It may well change others, since it takes over the arguments that are of
its whole name.
-/

namespace Wiring

open Relation

/-! ### Agreement -/

namespace Graph

variable {g g' : Graph} {P : String → Prop} {t d : String} {e : Edge}

/-- Both graphs have the same nodes for the types with the property, and whatever the constructors
of these types take has the property too. -/
structure AgreeOn (P : String → Prop) (g g' : Graph) : Prop where
  naming_eq : g.naming = g'.naming
  node?_eq : ∀ t, P t → g.node? t = g'.node? t
  closed : ∀ t, P t → ∀ e ∈ g.edgesOf t, P e.target

/-- What is generated for the type, and what it needs, is the same in both graphs. -/
structure SameRoutines (g g' : Graph) (t : String) : Prop where
  transitiveEdges_eq : g.transitiveEdges t = g'.transitiveEdges t
  resolveSignature_eq : g.resolveSignature t = g'.resolveSignature t
  resolveRoutine?_eq : g.resolveRoutine? t = g'.resolveRoutine? t
  interceptSignature_eq : g.interceptSignature t = g'.interceptSignature t
  interceptRoutine_eq : g.interceptRoutine t = g'.interceptRoutine t

namespace AgreeOn

variable (h : AgreeOn P g g')
include h

lemma edgesOf_eq (ht : P t) : g.edgesOf t = g'.edgesOf t := by
  rw [edgesOf, edgesOf, h.node?_eq t ht]

lemma transitiveEdges_eq (ht : P t) : g.transitiveEdges t = g'.transitiveEdges t := by
  -- the walk stays among edges that belong to both graphs and lead to types with the property
  have hedges : ∀ d, P d → ∀ e ∈ g.edgesOf d, P e.target ∧ e ∈ g.edges ∧ e ∈ g'.edges := by
    intro d hd e he
    exact ⟨h.closed d hd e he, mem_edges_of_mem_edgesOf he,
      mem_edges_of_mem_edgesOf (h.edgesOf_eq hd ▸ he)⟩
  rw [transitiveEdges, transitiveEdges, ← h.edgesOf_eq ht]
  refine Walk.walk_congr_of_closed (hedges t ht) (fun e he => hedges e.target he.1)
    (fun e he => h.edgesOf_eq he.1) ?_
  rintro e ⟨_, he, he'⟩
  rw [Sameness.contains_of_mem he, Sameness.contains_of_mem he']

lemma requiredArguments_eq (ht : P t) : g.requiredArguments t = g'.requiredArguments t := by
  rw [requiredArguments, requiredArguments, h.transitiveEdges_eq ht]

lemma returnTypeName_eq (ht : P t) : g.returnTypeName t = g'.returnTypeName t := by
  rw [returnTypeName, returnTypeName, h.node?_eq t ht]

lemma resolveSignature_eq (ht : P t) : g.resolveSignature t = g'.resolveSignature t := by
  rw [resolveSignature, resolveSignature, h.naming_eq, h.requiredArguments_eq ht,
    h.returnTypeName_eq ht]

lemma resolveCall_eq (ht : P t) : g.resolveCall t = g'.resolveCall t := by
  rw [resolveCall, resolveCall, h.naming_eq, h.requiredArguments_eq ht]

lemma bindEdges_eq {edges : List Edge} (hedges : ∀ e ∈ edges, P e.target) (rest : Body) :
    g.bindEdges edges rest = g'.bindEdges edges rest := by
  refine List.foldr_ext _ _ _ fun e he body => ?_
  rw [h.resolveCall_eq (hedges e (List.mem_of_mem_filter he))]

lemma resolveRoutine?_eq (ht : P t) : g.resolveRoutine? t = g'.resolveRoutine? t := by
  rw [resolveRoutine?, resolveRoutine?, ← h.node?_eq t ht, ← h.resolveSignature_eq ht,
    ← h.naming_eq]
  refine Option.map_congr fun n hn => ?_
  have hedges : ∀ e ∈ n.edges, P e.target := by
    rw [← edgesOf_of_node? hn]
    exact h.closed t ht
  rw [h.bindEdges_eq hedges]

lemma interceptSignature_eq (ht : P t) : g.interceptSignature t = g'.interceptSignature t := by
  rw [interceptSignature, interceptSignature, h.naming_eq, h.returnTypeName_eq ht]

lemma interceptRoutine_eq (ht : P t) : g.interceptRoutine t = g'.interceptRoutine t := by
  rw [interceptRoutine, interceptRoutine, h.naming_eq, h.interceptSignature_eq ht]

theorem sameRoutines (ht : P t) : SameRoutines g g' t where
  transitiveEdges_eq := h.transitiveEdges_eq ht
  resolveSignature_eq := h.resolveSignature_eq ht
  resolveRoutine?_eq := h.resolveRoutine?_eq ht
  interceptSignature_eq := h.interceptSignature_eq ht
  interceptRoutine_eq := h.interceptRoutine_eq ht

end AgreeOn

end Graph

/-! ### One more injectable type -/

variable {settings : Settings} {functions : List Signature} {before after : List Injectable}
variable {u : Injectable} {name t d : String} {recipes recipes' : List Recipe} {a : Argument}

namespace Recipe

/-- Another injectable type does not change how a type is constructed. -/
lemma find?_all_insert (hname : name ≠ u.typeName) :
    find? (all settings functions (before ++ u :: after)) name =
      find? (all settings functions (before ++ after)) name := by
  have hu : (u.typeName == name) = false := by simpa using hname.symm
  simp only [find?_all, List.filter_append, List.filter_cons, hu, Bool.false_eq_true, ↓reduceIte]

end Recipe

namespace Edge

/-- The edge of an argument depends on nothing but the recipes of its whole and its bare type
name. -/
lemma ofArgument_congr (hwhole : Recipe.find? recipes a.typeName = Recipe.find? recipes' a.typeName)
    (hbare : Recipe.find? recipes (settings.bareName a.typeName) =
      Recipe.find? recipes' (settings.bareName a.typeName)) :
    ofArgument settings recipes a = ofArgument settings recipes' a := by
  rw [ofArgument, ofArgument, Recipe.forArgument?, Recipe.forArgument?, hwhole, hbare]

end Edge

namespace Graph

variable {g g' : Graph} {e : Edge}

/-- No argument that the construction of the type takes anywhere could stand for the other type. -/
def Untouched (g : Graph) (settings : Settings) (other t : String) : Prop :=
  ∀ d ∈ t :: g.reachable t, ∀ n, g.node? d = some n → ∀ a ∈ n.constructor.arguments,
    a.typeName ≠ other ∧ settings.bareName a.typeName ≠ other

instance (other t : String) : Decidable (g.Untouched settings other t) :=
  inferInstanceAs (Decidable (∀ d ∈ t :: g.reachable t, ∀ n ∈ g.node? d,
    ∀ a ∈ n.constructor.arguments, a.typeName ≠ other ∧ settings.bareName a.typeName ≠ other))

lemma target_mem_reachable (hd : d ∈ t :: g.reachable t) (he : e ∈ g.edgesOf d) :
    e.target ∈ g.reachable t := by
  rw [WellLinked.mem_reachable_iff_transGen]
  rcases List.mem_cons.1 hd with rfl | hd
  · exact .single ⟨e, he, rfl⟩
  · exact (WellLinked.mem_reachable_iff_transGen.1 hd).tail ⟨e, he, rfl⟩

lemma exists_edge_of_mem_reachable (hd : d ∈ g.reachable t) :
    ∃ c ∈ t :: g.reachable t, ∃ e ∈ g.edgesOf c, e.target = d := by
  rw [WellLinked.mem_reachable_iff_transGen] at hd
  cases hd with
  | single hstep => exact ⟨t, List.mem_cons_self, hstep⟩
  | tail htc hstep =>
    exact ⟨_, List.mem_cons_of_mem _ (WellLinked.mem_reachable_iff_transGen.2 htc), hstep⟩

/-- What an untouched type reaches is not the other type. -/
lemma Untouched.ne_of_mem {injectables : List Injectable} {other : String}
    (hg : build settings functions injectables = .ok g) (huntouched : g.Untouched settings other t)
    (hd : d ∈ g.reachable t) : d ≠ other := by
  obtain ⟨c, hc, e, he, rfl⟩ := exists_edge_of_mem_reachable hd
  obtain ⟨n, hn, hne⟩ := exists_node?_of_mem_edgesOf he
  have hargument : e.argument ∈ n.constructor.arguments := by
    rw [← (wellLinked_of_build hg).arguments_eq n (mem_nodes_of_node? hn)]
    exact List.mem_map_of_mem hne
  obtain ⟨hwhole, hbare⟩ := huntouched c hc n hn e.argument hargument
  rcases (leadsTo_of_mem_edges hg (mem_edges_of_mem_edgesOf he)).target_eq with htarget | htarget
  · rwa [htarget]
  · rwa [htarget]

theorem agreeOn_of_insert (hg : build settings functions (before ++ after) = .ok g)
    (hg' : build settings functions (before ++ u :: after) = .ok g') (ht : t ≠ u.typeName)
    (huntouched : g.Untouched settings u.typeName t) : AgreeOn (· ∈ t :: g.reachable t) g g' := by
  constructor
  case naming_eq => rw [naming_of_build hg, naming_of_build hg']
  case closed => exact fun d hd e he => List.mem_cons_of_mem _ (target_mem_reachable hd he)
  case node?_eq =>
    intro d hd
    have hdu : d ≠ u.typeName := by
      rcases List.mem_cons.1 hd with rfl | hreachable
      · exact ht
      · exact huntouched.ne_of_mem hg hreachable
    have harguments := huntouched d hd
    obtain ⟨rfl, _⟩ := build_eq_ok_iff.1 hg
    obtain ⟨rfl, _⟩ := build_eq_ok_iff.1 hg'
    rw [node?_ofRecipes] at harguments ⊢
    rw [node?_ofRecipes, Recipe.find?_all_insert hdu]
    refine Option.map_congr fun r hr => ?_
    rw [Node.ofRecipe, Node.ofRecipe, Node.mk.injEq]
    refine ⟨rfl, rfl, rfl, List.map_congr_left fun a ha => ?_⟩
    obtain ⟨hwhole, hbare⟩ := harguments _ (by rw [hr, Option.map_some]) a ha
    exact Edge.ofArgument_congr (Recipe.find?_all_insert hwhole).symm
      (Recipe.find?_all_insert hbare).symm

/-- One more injectable type, wherever it is listed, leaves the routines of a type alone unless an
argument within reach of the type could stand for it. -/
theorem sameRoutines_of_insert (hg : build settings functions (before ++ after) = .ok g)
    (hg' : build settings functions (before ++ u :: after) = .ok g')
    (hnew : u.typeName ∉ g.typeNames) (ht : t ∈ g.typeNames)
    (huntouched : g.Untouched settings u.typeName t) : SameRoutines g g' t := by
  have htu : t ≠ u.typeName := ne_of_mem_of_not_mem ht hnew
  exact (agreeOn_of_insert hg hg' htu huntouched).sameRoutines List.mem_cons_self

/-- A new type named as the application spells its store takes the argument over, so that the
application no longer needs a path. The screen, which spells the store in another way, is left
alone. -/
theorem sameRoutines_of_new_anyStore :
    let before : List Injectable :=
      [⟨"App", { name := "init", arguments := [⟨"store", none, "any Store"⟩] }⟩,
        ⟨"Screen", { name := "init", arguments := [⟨"store", none, "some Store"⟩,
          ⟨"title", none, "String"⟩] }⟩]
    let after : List Injectable :=
      [⟨"Store", { name := "init", arguments := [⟨"path", none, "String"⟩] }⟩]
    let u : Injectable := ⟨"any Store", { name := "make" }⟩
    let g := ofRecipes {} (Recipe.all {} [] (before ++ after))
    let g' := ofRecipes {} (Recipe.all {} [] (before ++ u :: after))
    build {} [] (before ++ after) = .ok g ∧ build {} [] (before ++ u :: after) = .ok g' ∧
      u.typeName ∉ g.typeNames ∧ "Screen" ∈ g.typeNames ∧ g.Untouched {} u.typeName "Screen" ∧
      SameRoutines g g' "Screen" ∧ g.resolveSignature "App" ≠ g'.resolveSignature "App" := by
  intro before after u g g'
  have hg : build {} [] (before ++ after) = .ok g := by decide +kernel
  have hg' : build {} [] (before ++ u :: after) = .ok g' := by decide +kernel
  have hnew : u.typeName ∉ g.typeNames := by decide +kernel
  have ht : "Screen" ∈ g.typeNames := by decide +kernel
  have huntouched : g.Untouched {} u.typeName "Screen" := by decide +kernel
  exact ⟨hg, hg', hnew, ht, huntouched, sameRoutines_of_insert hg hg' hnew ht huntouched,
    by decide +kernel⟩

end Graph

end Wiring
