import Wiring.Blank

/-!
# Settings

What is a matter of naming or layout and not of the declarations themselves: the marker
interfaces, the naming rules, the words that may qualify a type name and the layout of the
generated text. Every setting has a default.

Settings that come from a file are checked before use (`Settings.check`).
-/

namespace Wiring

/-! ### The settings and their defaults -/

/-- The marker interfaces. -/
structure Markers where
  /-- Interfaces that extend this one are provider interfaces. -/
  provider : String := "Provider"
  /-- Types that conform to this one may be constructed. -/
  injectable : String := "Injectable"
deriving DecidableEq, Repr, Inhabited

/-- The naming rules of the members that are read and generated. -/
structure Naming where
  /-- A function of a provider interface whose name starts so constructs its return type. -/
  providePrefix : String := "provide"
  providerSuffix : String := "Provider"
  resolverSuffix : String := "Resolver"
  resolvePrefix : String := "resolve"
  interceptPrefix : String := "intercept"
  /-- The name of the callback that an intercept function takes. -/
  builderName : String := "build"
deriving DecidableEq, Repr, Inhabited

/-- The layout of the generated text. -/
structure LayoutOptions where
  /-- Spaces per level. -/
  indent : Nat := 4
  /-- Whether the marker interfaces are declared before the resolvers. -/
  preamble : Bool := true
  /-- Whether the imports of the declarations are repeated. -/
  imports : Bool := true
deriving DecidableEq, Repr, Inhabited

/-- The settings of a run. -/
structure Settings where
  markers : Markers := {}
  naming : Naming := {}
  /-- Words that may stand before a type name, as in `any Client`. -/
  qualifiers : List String := ["any", "some"]
  layout : LayoutOptions := {}
deriving DecidableEq, Repr, Inhabited

/-! ### Checking -/

/-- Why settings cannot be used. -/
inductive InvalidSetting
  /-- The named setting holds nothing but blank characters. -/
  | blank (field : String)
  /-- Resolve and intercept functions would have the same names. -/
  | samePrefixes
  /-- Levels would not be indented. -/
  | noIndent
deriving DecidableEq, Repr

namespace InvalidSetting

/-- The setting at fault. -/
def field : InvalidSetting → String
  | .blank field => field
  | .samePrefixes => "naming.intercept_prefix"
  | .noIndent => "emit.indent"

/-- What the setting at fault has to be. -/
def reason : InvalidSetting → String
  | .blank _ => "must not be empty"
  | .samePrefixes => "must differ from naming.resolve_prefix"
  | .noIndent => "must be at least 1"

/-- The message for the user. -/
def message (fault : InvalidSetting) : String :=
  "Invalid config value for '" ++ fault.field ++ "': " ++ fault.reason

end InvalidSetting

namespace Settings

/-- The settings that must not be blank, with their names, in the order of their check. -/
def nonblank (s : Settings) : List (String × String) :=
  [("markers.provider", s.markers.provider),
   ("markers.injectable", s.markers.injectable),
   ("naming.provide_prefix", s.naming.providePrefix),
   ("naming.resolver_suffix", s.naming.resolverSuffix),
   ("naming.resolve_prefix", s.naming.resolvePrefix),
   ("naming.intercept_prefix", s.naming.interceptPrefix),
   ("naming.builder_name", s.naming.builderName)]

/-- The first reason why the settings cannot be used, if there is one. -/
def fault? (s : Settings) : Option InvalidSetting :=
  match s.nonblank.find? fun setting => Blank.isBlankText setting.2 with
  | some setting => some (.blank setting.1)
  | none =>
    if s.naming.resolvePrefix = s.naming.interceptPrefix then some .samePrefixes
    else if s.layout.indent = 0 then some .noIndent
    else none

/-- The settings themselves if they can be used. -/
def check (s : Settings) : Except InvalidSetting Settings :=
  match s.fault? with
  | some fault => .error fault
  | none => .ok s

end Settings

/-! ### Type names -/

/-- What follows a qualifier at the start of a text, if blank characters set the two apart. -/
def afterQualifier? (text qualifier : List Char) : Option (List Char) :=
  match qualifier.isPrefixOf? text with
  | some (c :: rest) => if Blank.isBlank c then some (Blank.trimLeft rest) else none
  | _ => none

/-- A type name without blank characters at its ends and without the first qualifier that fits. -/
def unqualified (qualifiers : List (List Char)) (name : List Char) : List Char :=
  (qualifiers.findSome? (afterQualifier? (Blank.trim name))).getD (Blank.trim name)

/-- The type that a type name speaks of: `any Client` speaks of `Client`. -/
def Settings.bareName (s : Settings) (name : String) : String :=
  String.ofList (unqualified (s.qualifiers.map String.toList) name.toList)

/-! ### Names of generated members -/

namespace Naming

/-- A provider name without the provider suffix, if it ends with one. -/
def stem (n : Naming) (provider : String) : String :=
  if n.providerSuffix = "" then provider
  else match n.providerSuffix.toList.isSuffixOf? provider.toList with
    | some stem => String.ofList stem
    | none => provider

/-- The name of the resolver of a provider interface. -/
def resolverName (n : Naming) (provider : String) : String :=
  n.stem provider ++ n.resolverSuffix

/-- The name of the resolve function of a type. -/
def resolveFunction (n : Naming) (typeName : String) : String :=
  n.resolvePrefix ++ typeName

/-- The name of the intercept function of a type. -/
def interceptFunction (n : Naming) (typeName : String) : String :=
  n.interceptPrefix ++ typeName

/-- Whether a function constructs its return type: it is named so, and there is one. -/
def isProvide (n : Naming) (name : String) (returnTypeName : Option String) : Bool :=
  n.providePrefix.toList.isPrefixOf name.toList && returnTypeName.isSome

end Naming

end Wiring
