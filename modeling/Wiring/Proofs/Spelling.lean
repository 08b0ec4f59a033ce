import Mathlib.Tactic.Common
import Wiring.Assembly

/-!
# How names and types are spelled

All that is written of a resolver are names and types. A rule for names and a rule for types carry
over from there to arguments, signatures, calls, bodies, routines and outlines; what follows from
the rules carries over as well (`Outline.Spelled.imp`).
-/

namespace Wiring

variable {names types names' types' : String → Prop}

/-- The names and the type of an argument follow the rules. -/
structure Argument.Spelled (names types : String → Prop) (a : Argument) : Prop where
  label : names a.label
  bindingName : names a.bindingName
  typeName : types a.typeName

/-- The names and types of a signature follow the rules. -/
structure Signature.Spelled (names types : String → Prop) (s : Signature) : Prop where
  name : names s.name
  arguments : ∀ a ∈ s.arguments, a.Spelled names types
  returnTypeName : ∀ t ∈ s.returnTypeName, types t

/-- The name that a call calls. -/
@[simp]
def Callee.name : Callee → String
  | .function name => name
  | .member name => name

/-- The names and types of a call follow the rules. -/
structure Call.Spelled (names types : String → Prop) (c : Call) : Prop where
  callee : names c.callee.name
  arguments : ∀ a ∈ c.arguments, a.Spelled names types

/-- The names and types of a body follow the rules. -/
def Body.Spelled (names types : String → Prop) : Body → Prop
  | .done => True
  | .bind name call rest => names name ∧ call.Spelled names types ∧ rest.Spelled names types
  | .intercept interceptor builder rest =>
    names interceptor ∧ builder.Spelled names types ∧ rest.Spelled names types
  | .give call rest => call.Spelled names types ∧ rest.Spelled names types

/-- The names and types of a routine follow the rules. -/
structure Routine.Spelled (names types : String → Prop) (f : Routine) : Prop where
  signature : f.signature.Spelled names types
  body : f.body.Spelled names types

/-- The signatures of an outline, those of the resolve functions first. -/
def Outline.signatures (r : Outline) : List Signature :=
  r.resolveSignatures ++ r.interceptSignatures

/-- The routines of an outline, the resolve functions first. -/
def Outline.routines (r : Outline) : List Routine :=
  r.resolveRoutines ++ r.interceptRoutines

/-- The names and types of an outline follow the rules. -/
structure Outline.Spelled (names types : String → Prop) (r : Outline) : Prop where
  name : names r.name
  providerName : names r.providerName
  inheritedResolverNames : ∀ n ∈ r.inheritedResolverNames, names n
  signatures : ∀ s ∈ r.signatures, s.Spelled names types
  routines : ∀ f ∈ r.routines, f.Spelled names types

/-! ### Checking the rules -/

section Decidable

variable [DecidablePred names] [DecidablePred types]

instance : DecidablePred (Argument.Spelled names types) := fun a =>
  decidable_of_iff (names a.label ∧ names a.bindingName ∧ types a.typeName)
    ⟨fun h => ⟨h.1, h.2.1, h.2.2⟩, fun h => ⟨h.label, h.bindingName, h.typeName⟩⟩

instance : DecidablePred (Signature.Spelled names types) := fun s =>
  decidable_of_iff (names s.name ∧ (∀ a ∈ s.arguments, a.Spelled names types) ∧
      ∀ t ∈ s.returnTypeName, types t)
    ⟨fun h => ⟨h.1, h.2.1, h.2.2⟩, fun h => ⟨h.name, h.arguments, h.returnTypeName⟩⟩

instance : DecidablePred (Call.Spelled names types) := fun c =>
  decidable_of_iff (names c.callee.name ∧ ∀ a ∈ c.arguments, a.Spelled names types)
    ⟨fun h => ⟨h.1, h.2⟩, fun h => ⟨h.callee, h.arguments⟩⟩

/-- Whether the names and types of a body follow the rules, statement by statement. -/
instance Body.decidableSpelled : DecidablePred (Body.Spelled names types)
  | .done => .isTrue trivial
  | .bind name call rest =>
    have := Body.decidableSpelled rest
    inferInstanceAs (Decidable (names name ∧ call.Spelled names types ∧ rest.Spelled names types))
  | .intercept interceptor builder rest =>
    have := Body.decidableSpelled builder
    have := Body.decidableSpelled rest
    inferInstanceAs (Decidable
      (names interceptor ∧ builder.Spelled names types ∧ rest.Spelled names types))
  | .give call rest =>
    have := Body.decidableSpelled rest
    inferInstanceAs (Decidable (call.Spelled names types ∧ rest.Spelled names types))

instance : DecidablePred (Routine.Spelled names types) := fun f =>
  decidable_of_iff (f.signature.Spelled names types ∧ f.body.Spelled names types)
    ⟨fun h => ⟨h.1, h.2⟩, fun h => ⟨h.signature, h.body⟩⟩

instance : DecidablePred (Outline.Spelled names types) := fun r =>
  decidable_of_iff (names r.name ∧ names r.providerName ∧
      (∀ n ∈ r.inheritedResolverNames, names n) ∧ (∀ s ∈ r.signatures, s.Spelled names types) ∧
      ∀ f ∈ r.routines, f.Spelled names types)
    ⟨fun h => ⟨h.1, h.2.1, h.2.2.1, h.2.2.2.1, h.2.2.2.2⟩,
      fun h => ⟨h.name, h.providerName, h.inheritedResolverNames, h.signatures, h.routines⟩⟩

end Decidable

/-! ### Weaker rules -/

section Weaker

variable (hnames : ∀ s, names s → names' s) (htypes : ∀ s, types s → types' s)
include hnames htypes

lemma Argument.Spelled.imp {a : Argument} (ha : a.Spelled names types) :
    a.Spelled names' types' :=
  ⟨hnames _ ha.label, hnames _ ha.bindingName, htypes _ ha.typeName⟩

lemma Signature.Spelled.imp {s : Signature} (hs : s.Spelled names types) :
    s.Spelled names' types' :=
  ⟨hnames _ hs.name, fun a ha => (hs.arguments a ha).imp hnames htypes,
    fun t ht => htypes _ (hs.returnTypeName t ht)⟩

lemma Call.Spelled.imp {c : Call} (hc : c.Spelled names types) : c.Spelled names' types' :=
  ⟨hnames _ hc.callee, fun a ha => (hc.arguments a ha).imp hnames htypes⟩

lemma Body.Spelled.imp {b : Body} (hb : b.Spelled names types) : b.Spelled names' types' := by
  induction b with
  | done => trivial
  | bind name call rest ih => exact ⟨hnames _ hb.1, hb.2.1.imp hnames htypes, ih hb.2.2⟩
  | intercept interceptor builder rest ihbuilder ih =>
    exact ⟨hnames _ hb.1, ihbuilder hb.2.1, ih hb.2.2⟩
  | give call rest ih => exact ⟨hb.1.imp hnames htypes, ih hb.2⟩

lemma Routine.Spelled.imp {f : Routine} (hf : f.Spelled names types) : f.Spelled names' types' :=
  ⟨hf.signature.imp hnames htypes, hf.body.imp hnames htypes⟩

lemma Outline.Spelled.imp {r : Outline} (hr : r.Spelled names types) : r.Spelled names' types' where
  name := hnames _ hr.name
  providerName := hnames _ hr.providerName
  inheritedResolverNames n hn := hnames _ (hr.inheritedResolverNames n hn)
  signatures s hs := (hr.signatures s hs).imp hnames htypes
  routines f hf := (hr.routines f hf).imp hnames htypes

end Weaker

end Wiring
