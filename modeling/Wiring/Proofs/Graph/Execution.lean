import Wiring.Proofs.Graph.Routines

/-!
# Running routines

What the routines of a graph do when they run. A resolve function binds the values that it is
called with under the binding names of its arguments and runs its body in that scope. A bound name
shadows an earlier one. A call reads every argument from the scope; the last call of a body builds
a value of the type that the routine resolves. An intercept function is handed the outcome of its
builder and runs with nothing else in scope.

A run that reads a name that is not in scope, or calls a function that is not there, ends with a
fault. Calls may be nested up to a given depth.
-/

namespace Wiring

/-- A value: given from outside, or built from other values. -/
inductive Value (α : Type*)
  | given (value : α)
  | built (typeName : String) (constructor : Callee) (parts : List (Value α))

/-- Why a run does not end with a value. -/
inductive Fault
  /-- No value is in scope under the name. -/
  | unbound (name : String)
  /-- There is no such function. -/
  | undeclared (callee : Callee)
  /-- The call does not fit the arguments of the function. -/
  | mismatched
  /-- The body ends without returning. -/
  | unfinished
  /-- Calls are nested too deep. -/
  | exhausted
deriving DecidableEq, Repr

/-- The values in scope, the latest first. -/
abbrev Bindings (α : Type*) :=
  List (String × Value α)

variable {α : Type*}

/-- Read an argument from the scope. -/
def Bindings.fetch (scope : Bindings α) (a : Argument) : Except Fault (Value α) :=
  match scope.lookup a.bindingName with
  | some v => .ok v
  | none => .error (.unbound a.bindingName)

/-- Run a body that resolves the type, given what resolve functions and intercept functions do. -/
def Body.run (typeName : String) (resolve : Call → List (Value α) → Except Fault (Value α))
    (intercept : String → Except Fault (Value α) → Except Fault (Value α)) :
    Bindings α → Body → Except Fault (Value α)
  | _, .done => .error .unfinished
  | scope, .bind name call rest => do
    let values ← call.arguments.mapM scope.fetch
    let v ← resolve call values
    rest.run typeName resolve intercept ((name, v) :: scope)
  | scope, .intercept interceptor builder _ =>
    intercept interceptor (builder.run typeName resolve intercept scope)
  | scope, .give call _ => do
    let values ← call.arguments.mapM scope.fetch
    return .built typeName call.callee values

/-- The scope in which the body of a routine runs when it is called with the values. -/
def Routine.enter (r : Routine) (call : Call) (values : List (Value α)) :
    Except Fault (Bindings α) :=
  if r.signature.arguments.map Argument.label = call.arguments.map Argument.label ∧
      r.signature.arguments.length = values.length then
    .ok ((r.signature.arguments.map Argument.bindingName).zip values)
  else .error .mismatched

/-- Run an intercept function: all that it can call is its builder, whose outcome is given. -/
def Routine.interceptBuilder (r : Routine) (built : Except Fault (Value α)) :
    Except Fault (Value α) :=
  match r.signature.arguments, r.body with
  | [builder], .give ⟨.function name, []⟩ _ =>
    if name = builder.bindingName then built else .error (.undeclared (.function name))
  | _, _ => .error .mismatched

namespace Graph

/-- Call the intercept function of the name with a builder of the given outcome. -/
def intercept (g : Graph) (name : String) (built : Except Fault (Value α)) :
    Except Fault (Value α) :=
  match g.typeNames.find? fun t => g.naming.interceptFunction t == name with
  | some t => (g.interceptRoutine t).interceptBuilder built
  | none => .error (.undeclared (.function name))

/-- The type whose resolve function is called. -/
def resolved? (g : Graph) : Callee → Option String
  | .function name => g.typeNames.find? fun t => g.naming.resolveFunction t == name
  | .member _ => none

/-- Call a resolve function of the graph, with further calls nested less deep than `depth`. -/
def execute (g : Graph) : ℕ → Call → List (Value α) → Except Fault (Value α)
  | 0, _, _ => .error .exhausted
  | depth + 1, call, values =>
    match g.resolved? call.callee with
    | none => .error (.undeclared call.callee)
    | some t =>
      match g.resolveRoutine? t with
      | none => .error (.undeclared call.callee)
      | some r => do
        let scope ← r.enter call values
        r.body.run t (g.execute depth) g.intercept scope

/-! ### Finding functions by name -/

variable {g : Graph} {t : String}

lemma find?_of_injective {names : List String} {f : String → String} (hf : Function.Injective f)
    (ht : t ∈ names) : (names.find? fun name => f name == f t) = some t :=
  Sameness.find?_key_eq_some ht fun _ _ hname => hf hname

lemma resolved?_resolveFunction (ht : t ∈ g.typeNames) :
    g.resolved? (.function (g.naming.resolveFunction t)) = some t :=
  find?_of_injective (resolveFunction_injective g.naming) ht

/-- The intercept function of a type returns what its builder builds. -/
theorem intercept_eq (ht : t ∈ g.typeNames) (built : Except Fault (Value α)) :
    g.intercept (g.naming.interceptFunction t) built = built := by
  rw [intercept, find?_of_injective (interceptFunction_injective g.naming) ht]
  simp [Routine.interceptBuilder, interceptRoutine, interceptSignature, Argument.bindingName]

/-- Calling the resolve function of a node runs the bindings of its edges and its constructor. -/
theorem execute_resolveCall {n : Node} (hn : g.node? t = some n) {depth : ℕ}
    {values : List (Value α)} (hlength : (g.requiredArguments t).length = values.length) :
    g.execute (depth + 1) (g.resolveCall t) values =
      (g.bindEdges n.edges (.give (constructorCall n) .done)).run t (g.execute depth) g.intercept
        (((g.requiredArguments t).map Argument.bindingName).zip values) := by
  have ht : t ∈ g.typeNames := mem_typeNames_iff.2 ⟨n, hn⟩
  rw [execute, resolveCall, resolved?_resolveFunction ht]
  simp only [resolveRoutine?_of_node? hn, Routine.enter, resolveSignature, hlength, and_self,
    if_true]
  exact intercept_eq ht _

end Graph

end Wiring
