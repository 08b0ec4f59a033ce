import Wiring.Json.Shape
import Wiring.Json.Writer
import Wiring.Manifest

/-!
# Manifest documents

The JSON form of manifests: how every kind of declaration is read, and how it is written. What a
document leaves out takes its default.
-/

namespace Wiring

open Json Json.Reader

/-! ### Words -/

/-- The words for scopes. -/
def Scope.words : List (String × Scope) :=
  [("instance", .instanceLevel), ("static", .staticLevel), ("class", .classLevel)]

/-- The word for a scope. -/
def Scope.word : Scope → String
  | .instanceLevel => "instance"
  | .staticLevel => "static"
  | .classLevel => "class"

/-- The words for kinds of types. -/
def TypeKind.words : List (String × TypeKind) :=
  [("struct", .structType), ("class", .classType), ("enum", .enumType),
   ("extension", .extensionType)]

/-- The word for a kind of types. -/
def TypeKind.word : TypeKind → String
  | .structType => "struct"
  | .classType => "class"
  | .enumType => "enum"
  | .extensionType => "extension"

/-- The words for visibilities. -/
def Visibility.words : List (String × Visibility) :=
  [("private", .privateAccess), ("filePrivate", .filePrivateAccess), ("internal", .internalAccess),
   ("public", .publicAccess), ("open", .openAccess)]

/-- The word for a visibility. -/
def Visibility.word : Visibility → String
  | .privateAccess => "private"
  | .filePrivateAccess => "filePrivate"
  | .internalAccess => "internal"
  | .publicAccess => "public"
  | .openAccess => "open"

theorem Scope.lookup_word (s : Scope) : Scope.words.lookup s.word = some s := by
  cases s <;> rfl

theorem TypeKind.lookup_word (k : TypeKind) : TypeKind.words.lookup k.word = some k := by
  cases k <;> rfl

theorem Visibility.lookup_word (v : Visibility) : Visibility.words.lookup v.word = some v := by
  cases v <;> rfl

/-! ### Reading -/

/-- Read an argument. -/
def Argument.reader : Reader Argument :=
  record ⟨"", none, ""⟩
    [.needed "label" string fun a label => { a with label },
     .spare "bindingName" (optional string) fun a binding => { a with binding },
     .needed "typeName" string fun a typeName => { a with typeName }]

/-- Read a signature. -/
def Signature.reader : Reader Signature :=
  record { name := "" }
    [.spare "scope" (choice Scope.words) fun s scope => { s with scope },
     .needed "name" string fun s name => { s with name },
     .spare "arguments" (list Argument.reader) fun s arguments => { s with arguments },
     .spare "returnTypeName" (optional string) fun s returnTypeName => { s with returnTypeName }]

/-- Read an interface. -/
def Interface.reader : Reader Interface :=
  record { name := "" }
    [.needed "name" string fun i name => { i with name },
     .spare "inheritedTypeNames" (list string) fun i inherited => { i with inherited },
     .spare "functions" (list Signature.reader) fun i functions => { i with functions }]

/-- Read a property. -/
def Property.reader : Reader Property :=
  record { name := "", typeName := "" }
    [.needed "name" string fun p name => { p with name },
     .needed "typeName" string fun p typeName => { p with typeName },
     .spare "visibility" (choice Visibility.words) fun p visibility => { p with visibility }]

/-- Read a type declaration. -/
def TypeDeclaration.reader : Reader TypeDeclaration :=
  record { kind := .structType, name := "" }
    [.needed "kind" (choice TypeKind.words) fun t kind => { t with kind },
     .needed "name" string fun t name => { t with name },
     .spare "inheritedTypeNames" (list string) fun t inherited => { t with inherited },
     .spare "functions" (list Signature.reader) fun t functions => { t with functions },
     .spare "storedProperties" (list Property.reader) fun t properties => { t with properties }]

/-- Read a manifest. -/
def Manifest.reader : Reader Manifest :=
  record {}
    [.spare "imports" (list string) fun m imports => { m with imports },
     .spare "interfaces" (list Interface.reader) fun m interfaces => { m with interfaces },
     .spare "types" (list TypeDeclaration.reader) fun m types => { m with types }]

/-- The manifest that a document holds. -/
def Manifest.ofText (text : String) : Except Fault Manifest :=
  Manifest.reader.run text

/-! ### Writing -/

/-- Write an argument. -/
def Argument.written (a : Argument) : List Char :=
  Writer.record (("label", Text.encode a.label) :: Writer.whenSome "bindingName" a.binding
    ++ [("typeName", Text.encode a.typeName)])

/-- Write a signature. -/
def Signature.written (s : Signature) : List Char :=
  Writer.record ([("scope", Text.encode s.scope.word), ("name", Text.encode s.name),
      ("arguments", Writer.list (s.arguments.map Argument.written))]
    ++ Writer.whenSome "returnTypeName" s.returnTypeName)

/-- Write an interface. -/
def Interface.written (i : Interface) : List Char :=
  Writer.record [("name", Text.encode i.name), ("inheritedTypeNames", Writer.strings i.inherited),
    ("functions", Writer.list (i.functions.map Signature.written))]

/-- Write a property. -/
def Property.written (p : Property) : List Char :=
  Writer.record [("name", Text.encode p.name), ("typeName", Text.encode p.typeName),
    ("visibility", Text.encode p.visibility.word)]

/-- Write a type declaration. -/
def TypeDeclaration.written (t : TypeDeclaration) : List Char :=
  Writer.record [("kind", Text.encode t.kind.word), ("name", Text.encode t.name),
    ("inheritedTypeNames", Writer.strings t.inherited),
    ("functions", Writer.list (t.functions.map Signature.written)),
    ("storedProperties", Writer.list (t.properties.map Property.written))]

/-- Write a manifest. -/
def Manifest.written (m : Manifest) : List Char :=
  Writer.record [("imports", Writer.strings m.imports),
    ("interfaces", Writer.list (m.interfaces.map Interface.written)),
    ("types", Writer.list (m.types.map TypeDeclaration.written))]

/-- The document of a manifest. -/
def Manifest.toText (m : Manifest) : String :=
  String.ofList m.written

end Wiring
