/-!
# Function signatures

A function is declared with a scope, a name, arguments and perhaps a return type. Every argument
has a label, which a call writes, and a binding name, which the body of the function reads; an
argument that declares no binding name is bound under its label.

Two signatures are the same (`==`) if they agree in everything but the way a binding name is
written: one that is left out is the same as one that repeats the label. Plain equality (`=`)
tells the two spellings apart.
-/

namespace Wiring

/-! ### Arguments -/

/-- An argument of a function. -/
structure Argument where
  label : String
  binding : Option String := none
  typeName : String
deriving DecidableEq, Repr, Inhabited

namespace Argument

/-- The name under which the body of the function reads the argument. -/
def bindingName (a : Argument) : String :=
  a.binding.getD a.label

/-- What makes an argument the same as another one. -/
def identity (a : Argument) : String × String × String :=
  (a.label, a.bindingName, a.typeName)

instance : BEq Argument where
  beq a b := a.label == b.label && a.bindingName == b.bindingName && a.typeName == b.typeName

theorem beq_iff_fields {a b : Argument} : (a == b) = true ↔
    a.label = b.label ∧ a.bindingName = b.bindingName ∧ a.typeName = b.typeName := by
  change (a.label == b.label && a.bindingName == b.bindingName && a.typeName == b.typeName) = true
    ↔ _
  simp [and_assoc]

theorem beq_iff {a b : Argument} : (a == b) = true ↔ a.identity = b.identity := by
  simp [beq_iff_fields, identity]

instance : EquivBEq Argument where
  rfl := beq_iff.2 rfl
  symm h := beq_iff.2 (beq_iff.1 h).symm
  trans h h' := beq_iff.2 ((beq_iff.1 h).trans (beq_iff.1 h'))

/-- The argument as it stands in a declaration. A binding name that repeats the label is not
shown. -/
def text (a : Argument) : String :=
  if a.bindingName = a.label then a.label ++ ": " ++ a.typeName
  else a.label ++ " " ++ a.bindingName ++ ": " ++ a.typeName

end Argument

/-! ### Signatures -/

/-- Where a function lives on the type that declares it. -/
inductive Scope
  | instanceLevel
  | staticLevel
  | classLevel
deriving DecidableEq, Repr, Inhabited

/-- The word that opens a declaration of this scope. -/
def Scope.keyword : Scope → String
  | .instanceLevel => ""
  | .staticLevel => "static "
  | .classLevel => "class "

/-- The signature of a function. -/
structure Signature where
  scope : Scope := .instanceLevel
  name : String
  arguments : List Argument := []
  returnTypeName : Option String := none
deriving DecidableEq, Repr, Inhabited

namespace Signature

/-- What makes a signature the same as another one. -/
def identity (s : Signature) : Scope × String × List (String × String × String) × Option String :=
  (s.scope, s.name, s.arguments.map Argument.identity, s.returnTypeName)

instance : BEq Signature := ⟨fun s t => s.identity == t.identity⟩

theorem beq_iff {s t : Signature} : (s == t) = true ↔ s.identity = t.identity := by
  change (s.identity == t.identity) = true ↔ _
  exact beq_iff_eq

instance : EquivBEq Signature where
  rfl := beq_iff.2 rfl
  symm h := beq_iff.2 (beq_iff.1 h).symm
  trans h h' := beq_iff.2 ((beq_iff.1 h).trans (beq_iff.1 h'))

/-- Whether the function is an initializer. -/
def isInitializer (s : Signature) : Bool :=
  s.name == "init"

/-- Whether the function returns an instance of the type, under its name or as `Self`. -/
def isFactoryOf (s : Signature) (typeName : String) : Bool :=
  match s.returnTypeName with
  | some returned => returned == typeName || returned == "Self"
  | none => false

/-- The return type as it stands in a declaration. -/
def returnText (s : Signature) : String :=
  match s.returnTypeName with
  | some returned => " -> " ++ returned
  | none => ""

/-- The signature as it stands in a declaration. -/
def text (s : Signature) : String :=
  s.scope.keyword ++ "func " ++ s.name ++ "(" ++ ", ".intercalate (s.arguments.map Argument.text)
    ++ ")" ++ s.returnText

end Signature

end Wiring
