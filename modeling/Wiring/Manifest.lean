import Wiring.Names
import Wiring.Signature

/-!
# Manifests

A manifest lists what the analysed sources declare: the modules that they import, their
interfaces and their types. The manifests of several sources are put together with `append`.

A type that conforms to a marker is injectable: it is built through the first of its functions
that is an initializer or a factory of the type, or else, if it is a record whose properties are
all visible to the generated code, through the initializer that takes every property.
-/

namespace Wiring

/-! ### Declarations -/

/-- An interface, the interfaces that it names as its parents, and its own functions. -/
structure Interface where
  name : String
  inherited : List String := []
  functions : List Signature := []
deriving DecidableEq, Repr, Inhabited

/-- The kind of a type declaration. -/
inductive TypeKind
  | structType
  | classType
  | enumType
  | extensionType
deriving DecidableEq, Repr, Inhabited

/-- From where a property can be seen. -/
inductive Visibility
  | privateAccess
  | filePrivateAccess
  | internalAccess
  | publicAccess
  | openAccess
deriving DecidableEq, Repr, Inhabited

/-- A property that every value of a type stores. -/
structure Property where
  name : String
  typeName : String
  visibility : Visibility := .internalAccess
deriving DecidableEq, Repr, Inhabited

/-- A type, or an extension of one. -/
structure TypeDeclaration where
  kind : TypeKind
  name : String
  inherited : List String := []
  functions : List Signature := []
  properties : List Property := []
deriving DecidableEq, Repr, Inhabited

/-- Everything that a run works on. -/
structure Manifest where
  imports : List String := []
  interfaces : List Interface := []
  types : List TypeDeclaration := []
deriving DecidableEq, Repr, Inhabited

/-- A type that may be constructed, with the function that constructs it. -/
structure Injectable where
  typeName : String
  constructor : Signature
deriving DecidableEq, Repr, Inhabited

/-- An injectable type that nothing constructs. -/
structure MissingConstructor where
  typeName : String
deriving DecidableEq, Repr

/-- The message for the user. -/
def MissingConstructor.message (e : MissingConstructor) : String :=
  "Could not find an initializer or factory method in '" ++ e.typeName
    ++ "'. An injectable type must have one."

/-! ### Constructors -/

namespace TypeDeclaration

/-- Whether the type names the marker among the types that it inherits from. -/
def conformsTo (t : TypeDeclaration) (marker : String) : Bool :=
  t.inherited.contains marker

/-- The initializer that takes every property; a struct has it while all of them are internal. -/
def memberwise? (t : TypeDeclaration) : Option Signature :=
  if t.kind = .structType ∧ ∀ p ∈ t.properties, p.visibility = .internalAccess then
    some { name := "init",
           arguments := t.properties.map fun p => ⟨p.name, some p.name, p.typeName⟩ }
  else none

/-- The function that constructs the type, if there is one. -/
def constructor? (t : TypeDeclaration) : Option Signature :=
  match t.functions.find? fun f => f.isInitializer || f.isFactoryOf t.name with
  | some f => some f
  | none => t.memberwise?

/-- The type with the function that constructs it. -/
def injectable (t : TypeDeclaration) : Except MissingConstructor Injectable :=
  match t.constructor? with
  | some f => .ok ⟨t.name, f⟩
  | none => .error ⟨t.name⟩

end TypeDeclaration

/-! ### Manifests -/

namespace Manifest

/-- Two manifests one after the other. -/
def append (m n : Manifest) : Manifest :=
  ⟨m.imports ++ n.imports, m.interfaces ++ n.interfaces, m.types ++ n.types⟩

instance : Append Manifest := ⟨append⟩

@[simp] theorem imports_append (m n : Manifest) : (m ++ n).imports = m.imports ++ n.imports := rfl

@[simp] theorem interfaces_append (m n : Manifest) :
    (m ++ n).interfaces = m.interfaces ++ n.interfaces := rfl

@[simp] theorem types_append (m n : Manifest) : (m ++ n).types = m.types ++ n.types := rfl

/-- The imported modules, each once, in ascending order. -/
def sortedImports (m : Manifest) : List String :=
  Names.sorted m.imports

/-- The types that conform to the marker, or the first of them that nothing constructs. -/
def injectables (m : Manifest) (marker : String) : Except MissingConstructor (List Injectable) :=
  (m.types.filter (·.conformsTo marker)).mapM TypeDeclaration.injectable

end Manifest

end Wiring
