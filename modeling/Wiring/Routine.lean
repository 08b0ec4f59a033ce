import Wiring.Signature

/-!
# Routines

A routine is a generated function: its signature and the statements of its body. A statement
binds the result of a call to a name, hands a nested body to an interceptor, or returns the
result of a call.
-/

namespace Wiring

/-- What a call names: a function in scope, or a member of the type that is returned. -/
inductive Callee
  | function (name : String)
  | member (name : String)
deriving DecidableEq, Repr, Inhabited

/-- A call that passes every argument on under its label, from the binding of that name. -/
structure Call where
  callee : Callee
  arguments : List Argument
deriving DecidableEq, Repr, Inhabited

/-- The statements of a body, from the first on. -/
inductive Body
  /-- No more statements. -/
  | done
  /-- Bind the result of the call to the name. -/
  | bind (name : String) (call : Call) (rest : Body)
  /-- Return what the interceptor makes of a builder with the nested body. -/
  | intercept (interceptor : String) (builder rest : Body)
  /-- Return the result of the call. -/
  | give (call : Call) (rest : Body)
deriving DecidableEq, Repr, Inhabited

/-- A generated function. -/
structure Routine where
  signature : Signature
  body : Body
deriving DecidableEq, Repr, Inhabited

end Wiring
