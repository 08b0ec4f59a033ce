import Wiring.Proofs.Graph.Linking

/-!
# Injectable types in another order

A graph sees of its recipes only which one is in force for a type (`ofRecipes_congr`). Since its
types stand in ascending order, injectable types of different names may be given in any order
(`build_perm`).
-/

namespace Wiring

variable {settings : Settings} {functions : List Signature} {name : String}
variable {injectables injectables' : List Injectable} {recipes recipes' : List Recipe}

namespace Recipe

lemma find?_all_perm (hperm : injectables.Perm injectables')
    (hnodup : (injectables.map Injectable.typeName).Nodup) :
    find? (all settings functions injectables) name =
      find? (all settings functions injectables') name := by
  have hnames : (injectables.map ofInjectable).reverse.map typeName =
      (injectables.map Injectable.typeName).reverse := by
    rw [List.map_reverse, List.map_map]
    rfl
  have hreversed : (injectables.map ofInjectable).reverse.Perm
      (injectables'.map ofInjectable).reverse :=
    (List.reverse_perm _).trans ((hperm.map ofInjectable).trans (List.reverse_perm _).symm)
  have hfind := Sameness.find?_key_perm hreversed (hnames ▸ List.nodup_reverse.2 hnodup) name
  simp only [find?, all, List.findRev?_eq_find?_reverse, List.reverse_append, List.find?_append,
    hfind]

end Recipe

namespace Graph

/-- Only the recipes in force matter. -/
theorem ofRecipes_congr (h : ∀ name, Recipe.find? recipes name = Recipe.find? recipes' name) :
    ofRecipes settings recipes = ofRecipes settings recipes' := by
  have hnames : Names.sorted (recipes.map Recipe.typeName) =
      Names.sorted (recipes'.map Recipe.typeName) :=
    Names.sorted_congr fun n => by rw [← Recipe.isSome_find?, ← Recipe.isSome_find?, h]
  have hedge : Edge.ofArgument settings recipes = Edge.ofArgument settings recipes' := by
    funext a
    simp only [Edge.ofArgument, Recipe.forArgument?, h]
  have hnode : Node.ofRecipe settings recipes = Node.ofRecipe settings recipes' := by
    funext r
    simp only [Node.ofRecipe, hedge]
  simp only [ofRecipes, hnames, h, hnode]

theorem build_perm (settings : Settings) (functions : List Signature)
    (hperm : injectables.Perm injectables')
    (hnodup : (injectables.map Injectable.typeName).Nodup) :
    build settings functions injectables = build settings functions injectables' := by
  simp only [build, ofRecipes_congr fun _ => Recipe.find?_all_perm hperm hnodup]

end Graph

end Wiring
