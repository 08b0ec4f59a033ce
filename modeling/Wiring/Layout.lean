import Wiring.Assembly

/-!
# Layout of the generated text

The generated text is a list of lines. Its sections, which an empty line sets apart, are the
imports, the marker interfaces and the resolvers. A resolver is an interface that extends its
provider, with two groups of signatures, followed by an extension for each of its two groups of
routines; groups without members are left out.
-/

namespace Wiring

/-! ### Calls -/

/-- An argument of a call; one that is labelled `_` is passed without a label. -/
def Argument.passed (a : Argument) : String :=
  if a.label = "_" then a.bindingName else a.label ++ ": " ++ a.bindingName

/-- How a call names what it calls. -/
def Callee.text : Callee → String
  | .function name => name
  | .member name => "." ++ name

/-- The text of a call. -/
def Call.text (c : Call) : String :=
  c.callee.text ++ "(" ++ ", ".intercalate (c.arguments.map Argument.passed) ++ ")"

/-! ### Lines -/

namespace LayoutOptions

/-- The spaces in front of a line of the given level. -/
def indentation (o : LayoutOptions) (level : Nat) : String :=
  String.ofList (List.replicate (o.indent * level) ' ')

/-- The lines of a body. -/
def bodyLines (o : LayoutOptions) (level : Nat) : Body → List String
  | .done => []
  | .bind name call rest =>
    (o.indentation level ++ "let " ++ name ++ " = " ++ call.text) :: o.bodyLines level rest
  | .intercept interceptor builder rest =>
    (o.indentation level ++ "return " ++ interceptor ++ " \x7b") :: o.bodyLines (level + 1) builder
      ++ (o.indentation level ++ "\x7d") :: o.bodyLines level rest
  | .give call rest => (o.indentation level ++ "return " ++ call.text) :: o.bodyLines level rest

/-- The lines of a routine, without blank ones. -/
def routineLines (o : LayoutOptions) (r : Routine) : List String :=
  ((o.indentation 1 ++ r.signature.text ++ " \x7b") :: o.bodyLines 2 r.body
    ++ [o.indentation 1 ++ "\x7d"]).filter fun line => !Blank.isBlankText line

/-- The lines of a group of signatures. -/
def signatureLines (o : LayoutOptions) (signatures : List Signature) : List String :=
  signatures.map fun s => o.indentation 1 ++ s.text

end LayoutOptions

/-- The lines of several blocks with an empty line between one and the next. -/
def separated (blocks : List (List String)) : List String :=
  [""].intercalate blocks

/-! ### Resolvers -/

namespace LayoutOptions

/-- The interface of a resolver. -/
def interfaceLines (o : LayoutOptions) (r : Outline) : List String :=
  ("protocol " ++ r.name ++ ": " ++ ", ".intercalate (r.providerName :: r.inheritedResolverNames)
      ++ " \x7b")
    :: separated (([r.resolveSignatures, r.interceptSignatures].filter (!·.isEmpty)).map
        o.signatureLines)
    ++ ["\x7d"]

/-- The extension of a resolver with a group of routines, set apart from what precedes it. -/
def extensionLines (o : LayoutOptions) (name : String) (routines : List Routine) : List String :=
  if routines.isEmpty then []
  else ["", "extension " ++ name ++ " \x7b", ""] ++ separated (routines.map o.routineLines)
    ++ ["\x7d"]

/-- A resolver with its extensions. -/
def resolverLines (o : LayoutOptions) (r : Outline) : List String :=
  o.interfaceLines r ++ o.extensionLines r.name r.resolveRoutines
    ++ o.extensionLines r.name r.interceptRoutines

/-! ### The whole text -/

/-- The lines that import the modules, if that is wanted and there are any. -/
def importBlocks (o : LayoutOptions) (imports : List String) : List (List String) :=
  if o.imports && !imports.isEmpty then [imports.map ("import " ++ ·)] else []

/-- The declarations of the marker interfaces, if that is wanted. -/
def preambleBlocks (o : LayoutOptions) (markers : Markers) : List (List String) :=
  if o.preamble then
    [markers.injectable, markers.provider].map fun marker =>
      ["public protocol " ++ marker ++ " \x7b\x7d"]
  else []

/-- The lines of the whole text. -/
def documentLines (o : LayoutOptions) (markers : Markers) (imports : List String)
    (outlines : List Outline) : List String :=
  separated (o.importBlocks imports ++ o.preambleBlocks markers ++ outlines.map o.resolverLines)

end LayoutOptions

/-- The text of some lines, each of which ends with a line break. -/
def textOfLines (lines : List String) : String :=
  String.join (lines.map (· ++ "\n"))

/-- The text that declares and implements the resolvers. -/
def layout (o : LayoutOptions) (markers : Markers) (imports : List String)
    (outlines : List Outline) : String :=
  textOfLines (o.documentLines markers imports outlines)

/-- The text that is generated for a manifest. -/
def generate (settings : Settings) (m : Manifest) : Except Failure String :=
  match Assembly.compose settings m with
  | .ok a => .ok (layout settings.layout settings.markers m.sortedImports a.outlines)
  | .error failure => .error failure

end Wiring
