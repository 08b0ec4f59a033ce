import Wiring.Proofs.Delimited
import Wiring.Proofs.Layout.Bodies

/-!
# What a text shows

Two outlines agree if nothing that is shown of them differs: their names, the texts of their
signatures, and their statements, of whose arguments only the labels and binding names are shown.
Outlines that agree are laid out alike (`layout_congr`).
-/

namespace Wiring

open Delimited

/-- The calls call the same and pass on the same bindings under the same labels. -/
structure Call.Agrees (c c' : Call) : Prop where
  callee : c.callee = c'.callee
  arguments : c.arguments.map (fun a => (a.label, a.bindingName)) =
    c'.arguments.map fun a => (a.label, a.bindingName)

/-- The bodies have the same statements, with calls that agree. -/
inductive Body.Agrees : Body → Body → Prop
  | done : Agrees .done .done
  | bind {name : String} {call call' : Call} {rest rest' : Body} :
    call.Agrees call' → Agrees rest rest' → Agrees (.bind name call rest) (.bind name call' rest')
  | intercept {interceptor : String} {builder builder' rest rest' : Body} :
    Agrees builder builder' → Agrees rest rest' →
      Agrees (.intercept interceptor builder rest) (.intercept interceptor builder' rest')
  | give {call call' : Call} {rest rest' : Body} :
    call.Agrees call' → Agrees rest rest' → Agrees (.give call rest) (.give call' rest')

/-- The routines are shown by the same signature and have bodies that agree. -/
structure Routine.Agrees (f f' : Routine) : Prop where
  signature : f.signature.text = f'.signature.text
  body : f.body.Agrees f'.body

/-- The line that a resolver starts with. -/
def Outline.header (r : Outline) : String :=
  "protocol " ++ r.name ++ ": " ++ ", ".intercalate (r.providerName :: r.inheritedResolverNames)
    ++ " \x7b"

/-- The texts of the signatures of each kind, as far as there are any. -/
def Outline.signatureGroups (r : Outline) : List (List String) :=
  ([r.resolveSignatures, r.interceptSignatures].filter (!·.isEmpty)).map (·.map Signature.text)

/-- The routines of each kind, as far as there are any. -/
def Outline.routineGroups (r : Outline) : List (List Routine) :=
  [r.resolveRoutines, r.interceptRoutines].filter (!·.isEmpty)

/-- The outlines have the same names and signatures, and routines that agree. -/
structure Outline.Agrees (r r' : Outline) : Prop where
  name : r.name = r'.name
  providerName : r.providerName = r'.providerName
  inheritedResolverNames : r.inheritedResolverNames = r'.inheritedResolverNames
  signatureGroups : r.signatureGroups = r'.signatureGroups
  routineGroups : List.Forall₂ (List.Forall₂ Routine.Agrees) r.routineGroups r'.routineGroups

/-! ### Agreeing outlines are laid out alike -/

lemma Call.Agrees.text_eq {c c' : Call} (h : c.Agrees c') : c.text = c'.text := by
  have hpassed : ∀ l : List Argument, l.map Argument.passed =
      (l.map fun a => (a.label, a.bindingName)).map fun shown =>
        if shown.1 = "_" then shown.2 else shown.1 ++ ": " ++ shown.2 := fun l => by
    rw [List.map_map]
    rfl
  rw [text, text, h.callee, hpassed, h.arguments, ← hpassed]

namespace LayoutOptions

variable {o : LayoutOptions} {level : Nat} {b b' : Body} {f f' : Routine} {r r' : Outline}

lemma bodyLines_congr (h : b.Agrees b') : o.bodyLines level b = o.bodyLines level b' := by
  induction h generalizing level with
  | done => rfl
  | bind hcall _ ih => rw [bodyLines_bind, bodyLines_bind, Body.opening, hcall.text_eq, ih]; rfl
  | intercept _ _ ihbuilder ih =>
    rw [bodyLines_intercept, bodyLines_intercept, ihbuilder, ih]
    rfl
  | give hcall _ ih => rw [bodyLines_give, bodyLines_give, Body.opening, hcall.text_eq, ih]; rfl

lemma routineLines_congr (h : f.Agrees f') : o.routineLines f = o.routineLines f' := by
  rw [routineLines_eq, routineLines_eq, h.signature, bodyLines_congr h.body]

/-- The extension of a resolver with a group of routines that is not empty. -/
def extensionGroup (o : LayoutOptions) (name : String) (routines : List Routine) : List String :=
  "" :: ("extension " ++ name ++ " \x7b") :: "" ::
    (separated (routines.map o.routineLines) ++ ["\x7d"])

lemma extensionLines_append (name : String) (routines routines' : List Routine) :
    o.extensionLines name routines ++ o.extensionLines name routines' =
      ([routines, routines'].filter (!·.isEmpty)).flatMap (o.extensionGroup name) := by
  cases routines <;> cases routines' <;> simp [extensionLines, extensionGroup]

lemma resolverLines_eq (o : LayoutOptions) (r : Outline) : o.resolverLines r =
    r.header :: (separated (r.signatureGroups.map (·.map (o.indented 1))) ++
      "\x7d" :: r.routineGroups.flatMap (o.extensionGroup r.name)) := by
  have hgroups : (([r.resolveSignatures, r.interceptSignatures].filter (!·.isEmpty)).map
      o.signatureLines) = r.signatureGroups.map (·.map (o.indented 1)) := by
    rw [Outline.signatureGroups, List.map_map]
    apply List.map_congr_left
    intro group _
    rw [Function.comp_apply, List.map_map]
    rfl
  rw [resolverLines, List.append_assoc, extensionLines_append, interfaceLines, hgroups]
  simp only [Outline.routineGroups, Outline.header, List.cons_append, List.append_assoc,
    List.nil_append]

lemma resolverLines_congr (h : r.Agrees r') : o.resolverLines r = o.resolverLines r' := by
  have hgroups : r.routineGroups.map (·.map o.routineLines) =
      r'.routineGroups.map (·.map o.routineLines) :=
    map_eq_map_iff_forall₂.2 <| h.routineGroups.imp fun _ _ hgroup =>
      map_eq_map_iff_forall₂.2 (hgroup.imp fun _ _ => routineLines_congr)
  have hextensions : ∀ groups : List (List Routine),
      groups.flatMap (o.extensionGroup r.name) = (groups.map (·.map o.routineLines)).flatMap
        fun lines => "" :: ("extension " ++ r.name ++ " \x7b") :: "" ::
          (separated lines ++ ["\x7d"]) := fun groups => by
    rw [List.flatMap_map]
    rfl
  have hheader : r.header = r'.header := by
    rw [Outline.header, Outline.header, h.name, h.providerName, h.inheritedResolverNames]
  rw [resolverLines_eq, resolverLines_eq, hheader, h.signatureGroups, ← h.name, hextensions,
    hextensions, hgroups]

lemma importBlocks_congr {imports imports' : List String}
    (himports : o.imports = true → imports = imports') :
    o.importBlocks imports = o.importBlocks imports' := by
  cases hwanted : o.imports with
  | true => rw [himports hwanted]
  | false => simp [importBlocks, hwanted]

end LayoutOptions

/-- What is not shown of outlines does not show in the text, nor do imports that are not wanted. -/
theorem layout_congr {o : LayoutOptions} {markers : Markers} {imports imports' : List String}
    {outlines outlines' : List Outline} (himports : o.imports = true → imports = imports')
    (houtlines : List.Forall₂ Outline.Agrees outlines outlines') :
    layout o markers imports outlines = layout o markers imports' outlines' := by
  have hblocks : o.importBlocks imports = o.importBlocks imports' :=
    LayoutOptions.importBlocks_congr himports
  have hresolvers : outlines.map o.resolverLines = outlines'.map o.resolverLines :=
    map_eq_map_iff_forall₂.2 (houtlines.imp fun _ _ => LayoutOptions.resolverLines_congr)
  rw [layout, layout, LayoutOptions.documentLines, LayoutOptions.documentLines, hblocks, hresolvers]

end Wiring
