import Wiring.Proofs.Hierarchy.Declarations
import Wiring.Proofs.Lineage

/-!
# Circular inheritance

Which interfaces inherit from which is settled by their last declarations alone (`InheritsFrom`).
Interfaces are refused exactly if this relation has a circle, and the pair that is reported is the
first one that closes a circle with those before it (`ofInterfaces_ok_iff_and_error_iff`). Which
markers an interface extends is settled by the last declarations as well (`ExtendsMarker`).
-/

namespace Wiring.Hierarchy

open Link Relation

variable {declared : List Interface} {child parent : String}

/-- The last declaration of the child lists the parent, which is declared as well. -/
def InheritsFrom (declared : List Interface) (child parent : String) : Prop :=
  ∃ i, lastDeclared? declared child = some i ∧ parent ∈ i.inherited ∧
    parent ∈ declared.map Interface.name

/-- Every child with each of its declared parents: the children in ascending order, the parents of a
child as its last declaration lists them. -/
def inheritances (declared : List Interface) : List Link :=
  (Names.sorted (declared.map Interface.name)).flatMap fun child =>
    match lastDeclared? declared child with
    | none => []
    | some i => (i.inherited.filter (declared.map Interface.name).contains).map (Link.mk child)

lemma step_inheritances_iff :
    Step (inheritances declared) child parent ↔ InheritsFrom declared child parent := by
  simp only [Step, inheritances, List.mem_flatMap, Names.mem_sorted]
  constructor
  · rintro ⟨name, _, hname⟩
    cases hlast : lastDeclared? declared name with
    | none => simp [hlast] at hname
    | some i =>
      simp only [hlast, List.mem_map, List.mem_filter, List.contains_iff_mem, Link.mk.injEq]
        at hname
      obtain ⟨_, ⟨hinherited, hparent⟩, rfl, rfl⟩ := hname
      exact ⟨i, hlast, hinherited, List.mem_map.2 hparent⟩
  · rintro ⟨i, hlast, hinherited, hparent⟩
    obtain ⟨hi, rfl⟩ := mem_of_lastDeclared? hlast
    refine ⟨i.name, List.mem_map.2 ⟨i, hi, rfl⟩, ?_⟩
    rw [hlast]
    exact List.mem_map.2
      ⟨parent, List.mem_filter.2 ⟨hinherited, List.contains_iff_mem.2 hparent⟩, rfl⟩

lemma step_inheritances (declared : List Interface) :
    Step (inheritances declared) = InheritsFrom declared :=
  funext₂ fun _ _ => propext step_inheritances_iff

/-! ### The links of a hierarchy are its inheritances -/

theorem links_effective (declared : List Interface) :
    links ⟨effective declared⟩ = inheritances declared := by
  have hnames : Names.sorted (names ⟨effective declared⟩) =
      Names.sorted (declared.map Interface.name) :=
    Names.sorted_congr fun _ => mem_names_effective
  have hcontains : (names ⟨effective declared⟩).contains =
      (declared.map Interface.name).contains := by
    funext name
    rw [Bool.eq_iff_iff, List.contains_iff_mem, List.contains_iff_mem]
    exact mem_names_effective
  rw [links, hnames, inheritances]
  apply List.flatMap_congr
  intro child _
  rw [parents, hcontains, inherited, find?, find?_effective]
  cases lastDeclared? declared child <;> rfl

lemma step_links_effective (declared : List Interface) :
    Step (links ⟨effective declared⟩) = InheritsFrom declared := by
  rw [links_effective, step_inheritances]

lemma cyclic_links_effective_iff : Cyclic (links ⟨effective declared⟩) ↔
    ∃ name, TransGen (InheritsFrom declared) name name := by
  rw [Cyclic, step_links_effective]

lemma ofInterfaces_eq_error_iff {e : CircularInheritance} :
    ofInterfaces declared = .error e ↔ ClosesFirst (inheritances declared) ⟨e.child, e.parent⟩ := by
  rw [ofInterfaces, links_effective]
  refine refused_iff.trans ?_
  constructor
  · rintro ⟨link, hlink, rfl⟩
    exact hlink
  · exact fun hlink => ⟨_, hlink, rfl⟩

/-- Interfaces are refused exactly if they inherit from each other in a circle. Otherwise the last
declaration of every name is in force. The reported pair is the last one of the shortest prefix of
the inheritances with a circle: the child inherits from the parent, and the parent leads back to the
child. -/
theorem ofInterfaces_ok_iff_and_error_iff (declared : List Interface) :
    ((∃ h, ofInterfaces declared = .ok h) ↔
        ¬ ∃ name, TransGen (InheritsFrom declared) name name) ∧
      (∀ h, ofInterfaces declared = .ok h → h.interfaces = inForce declared) ∧
      ∀ e, (ofInterfaces declared = .error e ↔
          ClosesFirst (inheritances declared) ⟨e.child, e.parent⟩) ∧
        (ofInterfaces declared = .error e →
          InheritsFrom declared e.child e.parent ∧
            ReflTransGen (InheritsFrom declared) e.parent e.child) := by
  refine ⟨?_, ?_, fun e => ⟨ofInterfaces_eq_error_iff, ?_⟩⟩
  · rw [← cyclic_links_effective_iff]
    constructor
    · rintro ⟨h, hh⟩
      obtain ⟨rfl, hacyclic⟩ := ofInterfaces_eq_ok_iff.1 hh
      exact hacyclic
    · exact fun hacyclic => ⟨_, ofInterfaces_eq_ok_iff.2 ⟨rfl, hacyclic⟩⟩
  · intro h hh
    obtain ⟨rfl, _⟩ := ofInterfaces_eq_ok_iff.1 hh
    exact effective_eq_inForce declared
  · intro he
    obtain ⟨hmem, hback⟩ := (ofInterfaces_eq_error_iff.1 he).returns
    rw [step_inheritances] at hback
    exact ⟨step_inheritances_iff.1 hmem, hback⟩

/-- The circle is closed by the declaration that replaces an earlier one, and reported where its
last name in ascending order comes to be linked. -/
example : ofInterfaces [{ name := "C" }, { name := "B", inherited := ["A", "Provider"] },
    { name := "A", inherited := ["Provider", "C"] }, { name := "C", inherited := ["B", "B"] }] =
      .error ⟨"C", "B"⟩ := by
  cbv

end Wiring.Hierarchy
