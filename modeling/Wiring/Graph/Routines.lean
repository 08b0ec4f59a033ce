import Wiring.Graph.Basic
import Wiring.Routine

/-!
# Routines of a dependency graph

Every type of a graph has a resolve function and an intercept function. The resolve function
takes each parameter that the construction of the type needs somewhere, once, and constructs the
type within a builder that it hands to the intercept function. The intercept function returns
what the builder builds, and is there to be replaced.
-/

namespace Wiring.Graph

/-! ### What a type needs -/

/-- The edges of a type, each followed by the edges of its target, and each of them once. -/
def transitiveEdges (g : Graph) (typeName : String) : List Edge :=
  walk (fun e => g.edgesOf e.target) g.edges (g.edgesOf typeName)

/-- The types that a type needs, directly or through others. -/
def reachable (g : Graph) (typeName : String) : List String :=
  walk (fun name => (g.edgesOf name).map Edge.target) (g.edges.map Edge.target)
    ((g.edgesOf typeName).map Edge.target)

/-- The parameters that the construction of a type needs, each once. -/
def requiredArguments (g : Graph) (typeName : String) : List Argument :=
  (((g.transitiveEdges typeName).filter Edge.isParameter).map Edge.argument).eraseDups

/-- The type that the generated functions of a type return. -/
def returnTypeName (g : Graph) (typeName : String) : String :=
  ((g.node? typeName).map Node.returnTypeName).getD typeName

/-! ### Signatures -/

/-- The signature of the resolve function of a type. -/
def resolveSignature (g : Graph) (typeName : String) : Signature where
  name := g.naming.resolveFunction typeName
  arguments := g.requiredArguments typeName
  returnTypeName := some (g.returnTypeName typeName)

/-- The signature of the intercept function of a type, which takes the builder. -/
def interceptSignature (g : Graph) (typeName : String) : Signature where
  name := g.naming.interceptFunction typeName
  arguments := [⟨"_", some g.naming.builderName, "() -> " ++ g.returnTypeName typeName⟩]
  returnTypeName := some (g.returnTypeName typeName)

/-! ### Bodies -/

/-- The call of the resolve function of a type, which passes on all that it takes. -/
def resolveCall (g : Graph) (typeName : String) : Call :=
  ⟨.function (g.naming.resolveFunction typeName), g.requiredArguments typeName⟩

/-- The call that constructs the type of a node from the bindings in scope. -/
def constructorCall (n : Node) : Call where
  callee := match n.kind with
    | .provided => .function n.constructor.name
    | .injected | .parameter => .member n.constructor.name
  arguments := n.constructor.arguments

/-- Bind what the edges take that can be resolved, then go on with the rest. -/
def bindEdges (g : Graph) (edges : List Edge) (rest : Body) : Body :=
  (edges.filter fun e => !e.isParameter).foldr
    (fun e body => .bind e.argument.bindingName (g.resolveCall e.target) body) rest

/-- The resolve function of a type that the graph constructs. -/
def resolveRoutine? (g : Graph) (typeName : String) : Option Routine :=
  (g.node? typeName).map fun n =>
    { signature := g.resolveSignature typeName
      body := .intercept (g.naming.interceptFunction typeName)
        (g.bindEdges n.edges (.give (constructorCall n) .done)) .done }

/-- The intercept function of a type, as long as nothing replaces it. -/
def interceptRoutine (g : Graph) (typeName : String) : Routine where
  signature := g.interceptSignature typeName
  body := .give ⟨.function g.naming.builderName, []⟩ .done

end Wiring.Graph
