import Wiring.Layout
import Wiring.Manifest.Document
import Wiring.Settings.Document

/-!
# The command line

The arguments ask for a run over some documents, with settings from a file and the generated text
going to a file or to the standard output. Arguments are read from left to right; the first one
that asks for help or the version, or that cannot be understood, settles the matter.

A run works through file actions that are given to it, and stops at the first thing that fails.
-/

namespace Wiring

/-! ### Arguments -/

/-- What a run works on. -/
structure Invocation where
  documents : List String := []
  settingsPath : Option String := none
  outputPath : Option String := none
  verbose : Bool := false
deriving DecidableEq, Repr, Inhabited

/-- What the arguments ask for. -/
inductive Request
  | run (invocation : Invocation)
  | help
  | version
  /-- The arguments cannot be understood. -/
  | misuse
deriving DecidableEq, Repr

/-- The options that take a path. -/
inductive PathOption
  | settings
  | output
deriving DecidableEq, Repr

/-- The switches of the command line. -/
inductive Switch
  | path (option : PathOption)
  | verbose
  | help
  | version
deriving DecidableEq, Repr

/-- The switches with their names and letters. -/
def Switch.all : List (String × Char × Switch) :=
  [("config", 'c', .path .settings), ("output", 'o', .path .output), ("verbose", 'v', .verbose),
   ("help", 'h', .help), ("version", 'V', .version)]

/-- The switch of a name. -/
def Switch.ofName? (name : List Char) : Option Switch :=
  (Switch.all.find? fun s => s.1.toList == name).map (·.2.2)

/-- The switch of a letter. -/
def Switch.ofLetter? (letter : Char) : Option Switch :=
  (Switch.all.find? fun s => s.2.1 == letter).map (·.2.2)

namespace Invocation

/-- Set the path of an option, which must not be empty or set already. -/
def setPath? (i : Invocation) (option : PathOption) (path : List Char) : Option Invocation :=
  if path.isEmpty then none
  else
    match option with
    | .settings =>
      if i.settingsPath.isSome then none else some { i with settingsPath := String.ofList path }
    | .output =>
      if i.outputPath.isSome then none else some { i with outputPath := String.ofList path }

/-- Ask for logging, which must not have been asked for already. -/
def setVerbose? (i : Invocation) : Option Invocation :=
  if i.verbose then none else some { i with verbose := true }

/-- Add a document, whose path must not be empty. -/
def addDocument? (i : Invocation) (path : String) : Option Invocation :=
  if path.isEmpty then none else some { i with documents := i.documents ++ [path] }

/-- The request that remains at the end of the arguments: a run needs a document. -/
def request (i : Invocation) : Request :=
  if i.documents.isEmpty then .misuse else .run i

end Invocation

/-- Where an argument leads. -/
inductive Progress
  /-- On to the next argument. -/
  | next (invocation : Invocation)
  /-- To an option whose path is the next argument. -/
  | awaiting (option : PathOption) (invocation : Invocation)
  /-- To the end. -/
  | settled (request : Request)
deriving DecidableEq, Repr

/-- Go on if the argument could be taken. -/
def Progress.ofOption : Option Invocation → Progress
  | some i => .next i
  | none => .settled .misuse

namespace Invocation

/-- Take the letters of an argument. What follows the letter of an option is its path, which an
equals sign may introduce. -/
def takeLetters (i : Invocation) : List Char → Progress
  | [] => .next i
  | letter :: rest =>
    match Switch.ofLetter? letter with
    | some (.path option) =>
      match rest with
      | [] => .awaiting option i
      | '=' :: path => .ofOption (i.setPath? option path)
      | path => .ofOption (i.setPath? option path)
    | some .verbose =>
      match i.setVerbose? with
      | some i => takeLetters i rest
      | none => .settled .misuse
    | some .help => .settled .help
    | some .version => .settled .version
    | none => .settled .misuse

/-- Take a named switch, with its path if an equals sign introduces one. -/
def takeNamed (i : Invocation) (argument : List Char) : Progress :=
  let (name, value) := argument.span (· != '=')
  match Switch.ofName? name, value with
  | some (.path option), [] => .awaiting option i
  | some (.path option), _ :: path => .ofOption (i.setPath? option path)
  | some .verbose, [] => .ofOption i.setVerbose?
  | some .help, [] => .settled .help
  | some .version, [] => .settled .version
  | _, _ => .settled .misuse

/-- Take an argument. -/
def take (i : Invocation) (argument : String) : Progress :=
  match argument.toList with
  | '-' :: '-' :: rest => i.takeNamed rest
  | '-' :: letter :: letters => i.takeLetters (letter :: letters)
  | _ => .ofOption (i.addDocument? argument)

/-- Take documents only. -/
def takeDocuments (i : Invocation) : List String → Request
  | [] => i.request
  | path :: paths =>
    match i.addDocument? path with
    | some i => takeDocuments i paths
    | none => .misuse

/-- Whether an argument may be the path of an option. -/
def isPath (argument : String) : Bool :=
  argument == "-" || argument.toList.head? != some '-'

/-- Take all arguments, the first of which may be the path of an option. -/
def takeAll : Progress → List String → Request
  | .settled request, _ => request
  | .awaiting _ _, [] => .misuse
  | .awaiting option i, path :: arguments =>
    if isPath path then takeAll (.ofOption (i.setPath? option path.toList)) arguments else .misuse
  | .next i, [] => i.request
  | .next i, argument :: arguments =>
    if argument = "--" then i.takeDocuments arguments
    else takeAll (i.take argument) arguments

end Invocation

/-- What the arguments ask for. -/
def Request.ofArguments (arguments : List String) : Request :=
  Invocation.takeAll (.next {}) arguments

/-! ### Runs -/

/-- Actions on files. -/
structure FileActions (m : Type → Type) where
  /-- The text of a file, if it can be read. -/
  read : String → m (Option String)
  /-- Replace the text of a file, and tell whether that was possible. -/
  write : String → String → m Bool

/-- Why a run stops. -/
inductive RunFailure
  | settings (cause : LoadFailure)
  | unreadable (path : String)
  | malformed (path : String) (cause : Json.Fault)
  | failed (cause : Failure)
  | unwritable (path : String)
deriving DecidableEq, Repr

/-- The message for the user. -/
def RunFailure.message : RunFailure → String
  | .settings _ => "Could not load config"
  | .unreadable path => "Could not read " ++ path
  | .malformed path _ => "Could not parse declarations in " ++ path
  | .failed cause => cause.message
  | .unwritable path => "Could not write " ++ path

namespace Invocation

variable {m : Type → Type} [Monad m]

/-- The settings of a run. -/
def settings (i : Invocation) (files : FileActions m) : ExceptT RunFailure m Settings := do
  match i.settingsPath with
  | none => return {}
  | some path =>
    match Settings.ofFile path (← files.read path) with
    | .ok settings => return settings
    | .error cause => throw (.settings cause)

/-- The manifest of a document. -/
def manifest (files : FileActions m) (path : String) : ExceptT RunFailure m Manifest := do
  match ← files.read path with
  | none => throw (.unreadable path)
  | some text =>
    match Manifest.ofText text with
    | .ok manifest => return manifest
    | .error cause => throw (.malformed path cause)

/-- Generate the text and deliver it. The result is what goes to the standard output. -/
def run (i : Invocation) (files : FileActions m) : ExceptT RunFailure m String := do
  let settings ← i.settings files
  let whole ← i.documents.foldlM (fun whole path => do return whole ++ (← manifest files path)) {}
  match generate settings whole with
  | .error cause => throw (.failed cause)
  | .ok text =>
    match i.outputPath with
    | none => return text
    | some path => if ← files.write path text then return "" else throw (.unwritable path)

end Invocation

/-! ### Outcomes -/

/-- What the user gets to see. -/
structure Outcome where
  exitCode : UInt32
  output : String := ""
  error : Option String := none
deriving DecidableEq, Repr

/-- The answer to a request for the version. -/
def versionText : String :=
  "digen 0.1.0\n"

/-- How the command line is used. -/
def usageText : String :=
  "Generates dependency resolvers from analyzer declarations\n\n"
    ++ "Usage: digen [OPTIONS] <DECLARATIONS>...\n\n"
    ++ "Arguments:\n"
    ++ "  <DECLARATIONS>...  "
    ++ "Declaration documents produced by the analyzer, merged in the given order\n\n"
    ++ "Options:\n"
    ++ "  -c, --config <CONFIG>  Path to configuration file\n"
    ++ "  -o, --output <OUTPUT>  Write the generated code to this file instead of stdout\n"
    ++ "  -v, --verbose          Log what the generator does to stderr\n"
    ++ "  -h, --help             Print help\n"
    ++ "  -V, --version          Print version\n"

/-- Do what the arguments ask for. -/
def Request.perform {m : Type → Type} [Monad m] (request : Request) (files : FileActions m) :
    m Outcome := do
  match request with
  | .help => return ⟨0, usageText, none⟩
  | .version => return ⟨0, versionText, none⟩
  | .misuse => return ⟨2, "", some "the arguments cannot be understood; try '--help'"⟩
  | .run invocation =>
    match ← (invocation.run files).run with
    | .ok output => return ⟨0, output, none⟩
    | .error failure => return ⟨1, "", some failure.message⟩

end Wiring
