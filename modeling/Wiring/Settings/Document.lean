import Wiring.Settings
import Wiring.Toml.Document

/-!
# Settings documents

The TOML form of settings. What a document leaves out takes its default, and what it names beyond
the settings is passed over. A group of settings is written as a table, or as a list of values in
their order. Settings that are read are also checked.
-/

namespace Wiring

open Toml

/-! ### Values -/

namespace Toml.Tree

/-- A text. -/
def asText : Tree → Option String
  | .text value => some value
  | _ => none

/-- A truth value. -/
def asBool : Tree → Option Bool
  | .boolean value => some value
  | _ => none

/-- A natural number of at most 64 bits. -/
def asNat : Tree → Option Nat
  | .integer value => if 0 ≤ value ∧ value < beyondBits 64 then some value.toNat else none
  | _ => none

/-- A list of texts. -/
def asTexts : Tree → Option (List String)
  | .list members => members.mapM asText
  | .tables members => members.mapM asText
  | _ => none

end Toml.Tree

/-! ### Groups -/

/-- A setting of a group `σ` that is being read. -/
structure SettingReader (σ : Type) where
  name : String
  /-- Take the value of the setting into the group. -/
  take : σ → Tree → Option σ

/-- Take the value of a key into a group of settings. -/
def takeEntry {σ : Type} (settings : List (SettingReader σ)) (group : σ) (entry : String × Tree) :
    Option σ :=
  match settings.find? (·.name == entry.1) with
  | some setting => setting.take group entry.2
  | none => if entry.2.isReadable then some group else none

/-- Take values in the order of the settings into a group. -/
def takeInOrder {σ : Type} (settings : List (SettingReader σ)) (group : σ) (values : List Tree) :
    Option σ :=
  (settings.zip values).foldlM (fun group (setting, value) => setting.take group value) group

/-- Take a table or list into a group of settings. A moment counts as an empty table. -/
def takeGroup {σ : Type} (settings : List (SettingReader σ)) (group : σ) : Tree → Option σ
  | .table _ entries => entries.foldlM (takeEntry settings) group
  | .list members => takeInOrder settings group members
  | .tables members => takeInOrder settings group members
  | .moment => some group
  | _ => none

/-! ### The settings -/

/-- The marker interfaces. -/
def Markers.settings : List (SettingReader Markers) :=
  [⟨"provider", fun m t => t.asText.map fun provider => { m with provider }⟩,
   ⟨"injectable", fun m t => t.asText.map fun injectable => { m with injectable }⟩]

/-- The naming rules. -/
def Naming.settings : List (SettingReader Naming) :=
  [⟨"provide_prefix", fun n t => t.asText.map fun providePrefix => { n with providePrefix }⟩,
   ⟨"provider_suffix", fun n t => t.asText.map fun providerSuffix => { n with providerSuffix }⟩,
   ⟨"resolver_suffix", fun n t => t.asText.map fun resolverSuffix => { n with resolverSuffix }⟩,
   ⟨"resolve_prefix", fun n t => t.asText.map fun resolvePrefix => { n with resolvePrefix }⟩,
   ⟨"intercept_prefix", fun n t => t.asText.map fun interceptPrefix => { n with interceptPrefix }⟩,
   ⟨"builder_name", fun n t => t.asText.map fun builderName => { n with builderName }⟩]

/-- The layout of the generated text. -/
def LayoutOptions.settings : List (SettingReader LayoutOptions) :=
  [⟨"indent", fun o t => t.asNat.map fun indent => { o with indent }⟩,
   ⟨"preamble", fun o t => t.asBool.map fun preamble => { o with preamble }⟩,
   ⟨"imports", fun o t => t.asBool.map fun imports => { o with imports }⟩]

/-- All settings. -/
def Settings.settings : List (SettingReader Settings) :=
  [⟨"markers", fun s t =>
      (takeGroup Markers.settings {} t).map fun markers => { s with markers }⟩,
   ⟨"naming", fun s t => (takeGroup Naming.settings {} t).map fun naming => { s with naming }⟩,
   ⟨"existential_qualifiers", fun s t => t.asTexts.map fun qualifiers => { s with qualifiers }⟩,
   ⟨"emit", fun s t =>
      (takeGroup LayoutOptions.settings {} t).map fun layout => { s with layout }⟩]

/-- Why settings cannot be loaded. -/
inductive LoadFailure
  /-- There is no file to read at the path. -/
  | unreadable (path : String)
  /-- The document is not TOML, or not of the shape of settings. -/
  | malformed
  /-- A setting cannot be used. -/
  | invalid (cause : InvalidSetting)
deriving DecidableEq, Repr

/-- The message for the user. -/
def LoadFailure.message : LoadFailure → String
  | .unreadable path =>
    "Could not read config file '" ++ path ++ "': No such file or directory (os error 2)"
  | .malformed => "Could not parse config"
  | .invalid cause => cause.message

namespace Settings

/-- The settings that a document holds, if they can be used. -/
def ofText (text : String) : Except LoadFailure Settings :=
  match Table.ofText? text with
  | none => .error .malformed
  | some table =>
    match takeGroup Settings.settings {} table.tree with
    | none => .error .malformed
    | some settings => settings.check.mapError .invalid

/-- The settings of the file at a path, of which the text is given if it can be read. -/
def ofFile (path : String) (text : Option String) : Except LoadFailure Settings :=
  match text with
  | some text => ofText text
  | none => .error (.unreadable path)

end Settings

end Wiring
