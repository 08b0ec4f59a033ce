import Wiring.Graph.Routines
import Wiring.Hierarchy
import Wiring.Peeling

/-!
# Assemblies of resolvers

Every interface that inherits from the provider marker gets a resolver. A resolver inherits from
the resolvers of the provider interfaces above its own and declares only what none of them
declares already: resolve functions are told apart by their signatures, intercept functions by
the type that they are for.

The resolvers are composed with each one behind those that it inherits from. Providers that
have nothing to do with each other stay in the order of their declaration.
-/

namespace Wiring

/-! ### Failures -/

/-- Why a run fails. -/
inductive Failure
  | missingConstructor (cause : MissingConstructor)
  | circularInheritance (cause : CircularInheritance)
  /-- The providers cannot be put into an order. -/
  | unorderable
  | circularDependency (provider : String) (cause : CircularDependency)
deriving DecidableEq, Repr

/-- The message for the user. -/
def Failure.message : Failure → String
  | .missingConstructor cause => cause.message
  | .circularInheritance cause => cause.message
  | .unorderable => "The given elements do not form a directed acyclic graph"
  | .circularDependency provider cause =>
    "Could not build resolver for '" ++ provider ++ "': " ++ cause.message

/-! ### Providers -/

/-- Whether a function of a provider interface constructs its return type. -/
def Settings.isProvide (settings : Settings) (f : Signature) : Bool :=
  settings.naming.isProvide f.name f.returnTypeName

/-- A provider interface with the provide functions that it declares itself. -/
structure Provider where
  name : String
  ownFunctions : List Signature
  parents : List String
deriving DecidableEq, Repr, Inhabited

namespace Hierarchy

/-- The names of the provider interfaces, in the order of their declaration. -/
def providerNames (h : Hierarchy) (settings : Settings) : List String :=
  (h.descendants settings.markers.provider).map Interface.name

/-- The provider interfaces above an interface. -/
def providerAncestors (h : Hierarchy) (settings : Settings) (name : String) : List String :=
  (h.ancestors name).filter (h.providerNames settings).contains

/-- The provider interface of a name. -/
def provider (h : Hierarchy) (settings : Settings) (name : String) : Provider :=
  ⟨name, (h.functions name).filter settings.isProvide, h.parents name⟩

/-- The provide functions of an interface and of those above it. -/
def provideFunctions (h : Hierarchy) (settings : Settings) (name : String) : List Signature :=
  (h.transitiveFunctions name).filter settings.isProvide

/-- The providers, each behind those above it. They are taken off from the end of the declarations,
so that turning the result round restores the order of declaration where it is free. -/
def composedOrder (h : Hierarchy) (settings : Settings) : Option (List String) :=
  (peel (· == ·) ((h.providerNames settings).reverse.map fun name =>
    ⟨name, h.providerAncestors settings name⟩)).map List.reverse

end Hierarchy

/-! ### Composition -/

/-- A provider interface, its dependency graph and the provider interfaces above it. -/
structure Resolver where
  provider : Provider
  graph : Graph
  parents : List String
deriving DecidableEq, Repr, Inhabited

/-- The resolvers of a run in composed order. -/
structure Assembly where
  resolvers : List Resolver
  naming : Naming
deriving DecidableEq, Repr, Inhabited

/-- The resolver of a provider interface. -/
def Resolver.build (settings : Settings) (h : Hierarchy) (injectables : List Injectable)
    (name : String) : Except Failure Resolver :=
  match Graph.build settings (h.provideFunctions settings name) injectables with
  | .ok graph => .ok ⟨h.provider settings name, graph, h.providerAncestors settings name⟩
  | .error cause => .error (.circularDependency name cause)

/-- The resolvers of all provider interfaces of a manifest. -/
def Assembly.compose (settings : Settings) (m : Manifest) : Except Failure Assembly := do
  let injectables ←
    (m.injectables settings.markers.injectable).mapError Failure.missingConstructor
  let h ← (Hierarchy.ofInterfaces m.interfaces).mapError Failure.circularInheritance
  match h.composedOrder settings with
  | none => .error .unorderable
  | some order =>
    let resolvers ← order.mapM (Resolver.build settings h injectables)
    return ⟨resolvers, settings.naming⟩

namespace Assembly

/-! ### Inheritance among resolvers -/

/-- The resolver of a provider interface. -/
def find? (a : Assembly) (provider : String) : Option Resolver :=
  a.resolvers.find? (·.provider.name == provider)

/-- The name of a resolver. -/
def nameOf (a : Assembly) (r : Resolver) : String :=
  a.naming.resolverName r.provider.name

/-- The providers that a provider inherits from as far as they have resolvers. -/
def parentsOf (a : Assembly) (provider : String) : List String :=
  ((a.find? provider).map Resolver.parents).getD []

/-- The resolvers that a resolver inherits from, directly or through others, in composed order. -/
def transitiveParents (a : Assembly) (r : Resolver) : List Resolver :=
  let above := walk a.parentsOf (a.resolvers.map (·.provider.name)) r.parents
  a.resolvers.filter fun parent => above.contains parent.provider.name

/-- The names of the resolvers of the providers that a resolver's provider names as parents. -/
def inheritedResolverNames (a : Assembly) (r : Resolver) : List String :=
  (r.provider.parents.filter fun name => (a.find? name).isSome).map a.naming.resolverName

/-! ### What a resolver declares -/

/-- The types whose resolve functions no inherited resolver can declare. -/
def resolvableTypeNames (a : Assembly) (r : Resolver) : List String :=
  let inherited := (a.transitiveParents r).flatMap fun parent =>
    parent.graph.typeNames.map parent.graph.resolveSignature
  r.graph.typeNames.filter fun typeName => !inherited.contains (r.graph.resolveSignature typeName)

/-- The types that no inherited resolver constructs. -/
def interceptableTypeNames (a : Assembly) (r : Resolver) : List String :=
  let inherited := (a.transitiveParents r).flatMap fun parent => parent.graph.typeNames
  r.graph.typeNames.filter fun typeName => !inherited.contains typeName

/-- The signatures of the resolve functions that a resolver declares. -/
def resolveSignatures (a : Assembly) (r : Resolver) : List Signature :=
  (a.resolvableTypeNames r).map r.graph.resolveSignature

/-- The signatures of the intercept functions that a resolver declares. -/
def interceptSignatures (a : Assembly) (r : Resolver) : List Signature :=
  (a.interceptableTypeNames r).map r.graph.interceptSignature

/-- The resolve functions that a resolver declares. -/
def resolveRoutines (a : Assembly) (r : Resolver) : List Routine :=
  (a.resolvableTypeNames r).filterMap r.graph.resolveRoutine?

/-- The intercept functions that a resolver declares. -/
def interceptRoutines (a : Assembly) (r : Resolver) : List Routine :=
  (a.interceptableTypeNames r).map r.graph.interceptRoutine

end Assembly

/-! ### Outlines -/

/-- What the generated text says of a resolver. -/
structure Outline where
  name : String
  providerName : String
  inheritedResolverNames : List String := []
  resolveSignatures : List Signature := []
  interceptSignatures : List Signature := []
  resolveRoutines : List Routine := []
  interceptRoutines : List Routine := []
deriving DecidableEq, Repr, Inhabited

namespace Assembly

/-- The outline of a resolver. -/
def outline (a : Assembly) (r : Resolver) : Outline where
  name := a.nameOf r
  providerName := r.provider.name
  inheritedResolverNames := a.inheritedResolverNames r
  resolveSignatures := a.resolveSignatures r
  interceptSignatures := a.interceptSignatures r
  resolveRoutines := a.resolveRoutines r
  interceptRoutines := a.interceptRoutines r

/-- The outlines of all resolvers in composed order. -/
def outlines (a : Assembly) : List Outline :=
  a.resolvers.map a.outline

end Assembly

end Wiring
