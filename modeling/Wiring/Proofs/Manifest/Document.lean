import Wiring.Manifest.Document
import Wiring.Proofs.Json.Shape

/-!
# Manifests that were written

Every kind of declaration is read back from what was written of it: a field that was left out is
one whose default is the value that it had, and no field is read into another's place. So a
document holds the manifest that it was written of, with all that manifests tell apart
(`Manifest.ofText_toText`).
-/

namespace Wiring

open Json Json.Reader

/-! ### Members of declarations -/

lemma Argument.reads (a : Argument) : Reads Argument.reader a.written a := by
  obtain ⟨label, binding, typeName⟩ := a
  apply Fills.reads
  cases binding with
  | none =>
    exact .field rfl (by decide) ((reads_string label).map _) <|
      .field rfl (by decide) ((reads_string typeName).map _) <| .done (by decide)
  | some name =>
    exact .field rfl (by decide) ((reads_string label).map _) <|
      .field rfl (by decide) ((reads_string name).optional.map _) <|
      .field rfl (by decide) ((reads_string typeName).map _) <| .done (by decide)

lemma Signature.reads (s : Signature) : Reads Signature.reader s.written s := by
  obtain ⟨scope, name, arguments, returnTypeName⟩ := s
  have harguments := Reads.list fun a (_ : a ∈ arguments) => a.reads
  apply Fills.reads
  cases returnTypeName with
  | none =>
    exact .field rfl (by decide) ((reads_choice scope.lookup_word).map _) <|
      .field rfl (by decide) ((reads_string name).map _) <|
      .field rfl (by decide) (harguments.map _) <| .done (by decide)
  | some returned =>
    exact .field rfl (by decide) ((reads_choice scope.lookup_word).map _) <|
      .field rfl (by decide) ((reads_string name).map _) <|
      .field rfl (by decide) (harguments.map _) <|
      .field rfl (by decide) ((reads_string returned).optional.map _) <| .done (by decide)

lemma Property.reads (p : Property) : Reads Property.reader p.written p := by
  apply Fills.reads
  exact .field rfl (by decide) ((reads_string p.name).map _) <|
    .field rfl (by decide) ((reads_string p.typeName).map _) <|
    .field rfl (by decide) ((reads_choice p.visibility.lookup_word).map _) <| .done (by decide)

/-! ### Declarations -/

lemma reads_strings (values : List String) : Reads (list string) (Writer.strings values) values :=
  Reads.list fun s _ => reads_string s

lemma reads_functions (functions : List Signature) :
    Reads (list Signature.reader) (Writer.list (functions.map Signature.written)) functions :=
  Reads.list fun s _ => s.reads

lemma Interface.reads (i : Interface) : Reads Interface.reader i.written i := by
  apply Fills.reads
  exact .field rfl (by decide) ((reads_string i.name).map _) <|
    .field rfl (by decide) ((reads_strings i.inherited).map _) <|
    .field rfl (by decide) ((reads_functions i.functions).map _) <| .done (by decide)

lemma TypeDeclaration.reads (t : TypeDeclaration) :
    Reads TypeDeclaration.reader t.written t := by
  have hproperties := Reads.list fun p (_ : p ∈ t.properties) => p.reads
  apply Fills.reads
  exact .field rfl (by decide) ((reads_choice t.kind.lookup_word).map _) <|
    .field rfl (by decide) ((reads_string t.name).map _) <|
    .field rfl (by decide) ((reads_strings t.inherited).map _) <|
    .field rfl (by decide) ((reads_functions t.functions).map _) <|
    .field rfl (by decide) (hproperties.map _) <| .done (by decide)

/-! ### Manifests -/

lemma Manifest.reads (m : Manifest) : Reads Manifest.reader m.written m := by
  have hinterfaces := Reads.list fun i (_ : i ∈ m.interfaces) => i.reads
  have htypes := Reads.list fun t (_ : t ∈ m.types) => t.reads
  apply Fills.reads
  exact .field rfl (by decide) ((reads_strings m.imports).map _) <|
    .field rfl (by decide) (hinterfaces.map _) <|
    .field rfl (by decide) (htypes.map _) <| .done (by decide)

/-- The document of a manifest holds that manifest, down to which binding names and return types
are there: nothing is refused, lost or read in another way than it was written. -/
theorem Manifest.ofText_toText (m : Manifest) : Manifest.ofText m.toText = .ok m := by
  have hread := m.reads.read []
  rw [List.append_nil] at hread
  rw [ofText, Reader.run, toText, String.toList_ofList, hread]
  rfl

end Wiring
