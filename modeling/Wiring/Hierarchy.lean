import Wiring.Links
import Wiring.Manifest

/-!
# Interface hierarchies

The interfaces of a manifest and their inheritance. An interface that is declared again is
replaced where it stands. A name among the inherited ones is a parent if it is declared; the
others, such as the markers, are no parents but can be asked for.

A hierarchy is refused if its interfaces inherit from each other in a circle. The links from
child to parent are laid with the children in ascending order, so that the reported pair does not
depend on the order of the declarations.
-/

namespace Wiring

/-- Interfaces that inherit from each other in a circle, closed by this child and parent. -/
structure CircularInheritance where
  child : String
  parent : String
deriving DecidableEq, Repr

/-- The message for the user. -/
def CircularInheritance.message (e : CircularInheritance) : String :=
  "Could not resolve inheritance graph due to circular inheritance between '" ++ e.child
    ++ "' and '" ++ e.parent ++ "'"

/-- Interfaces in the order of their first declaration, each declared once. -/
structure Hierarchy where
  interfaces : List Interface
deriving DecidableEq, Repr

namespace Hierarchy

/-! ### Declarations in force -/

/-- Put a declaration in force: in the place of one of the same name, or else at the end. -/
def declare (known : List Interface) (i : Interface) : List Interface :=
  if known.any (·.name == i.name) then known.map fun k => if k.name = i.name then i else k
  else known ++ [i]

/-- For every name its last declaration, at the place of its first. -/
def effective (declared : List Interface) : List Interface :=
  declared.foldl declare []

theorem names_declare (known : List Interface) (i : Interface) :
    (declare known i).map Interface.name =
      if i.name ∈ known.map Interface.name then known.map Interface.name
      else known.map Interface.name ++ [i.name] := by
  have hany : known.any (·.name == i.name) = true ↔ i.name ∈ known.map Interface.name := by
    simp [List.any_eq_true]
  unfold declare
  by_cases h : i.name ∈ known.map Interface.name
  · rw [if_pos (hany.2 h), if_pos h, List.map_map]
    refine List.map_congr_left fun k _ => ?_
    simp only [Function.comp_apply]
    split
    · next hk => exact hk.symm
    · rfl
  · rw [if_neg (mt hany.1 h), if_neg h, List.map_append]
    rfl

theorem nodup_names_declare {known : List Interface} (i : Interface)
    (h : (known.map Interface.name).Nodup) : ((declare known i).map Interface.name).Nodup := by
  rw [names_declare]
  split
  · exact h
  · next hi =>
    exact List.nodup_append.2 ⟨h, by simp, fun a ha b hb => by
      rw [List.mem_singleton.1 hb]
      exact fun heq => hi (heq ▸ ha)⟩

/-- Every name is in force once. -/
theorem nodup_names_effective (declared : List Interface) :
    ((effective declared).map Interface.name).Nodup := by
  suffices ∀ known : List Interface, (known.map Interface.name).Nodup →
      ((declared.foldl declare known).map Interface.name).Nodup from this [] .nil
  induction declared with
  | nil => exact fun _ h => h
  | cons i declared ih => exact fun known h => ih _ (nodup_names_declare i h)

/-! ### Parents and links -/

/-- The names of the interfaces. -/
def names (h : Hierarchy) : List String :=
  h.interfaces.map Interface.name

/-- The interface of a name. -/
def find? (h : Hierarchy) (name : String) : Option Interface :=
  h.interfaces.find? (·.name == name)

/-- The names that an interface inherits from, whether declared or not. -/
def inherited (h : Hierarchy) (name : String) : List String :=
  ((h.find? name).map Interface.inherited).getD []

/-- The functions that an interface declares itself. -/
def functions (h : Hierarchy) (name : String) : List Signature :=
  ((h.find? name).map Interface.functions).getD []

/-- The declared interfaces that an interface inherits from, as they are listed. -/
def parents (h : Hierarchy) (name : String) : List String :=
  (h.inherited name).filter h.names.contains

/-- The links from children to parents, the children in ascending order. -/
def links (h : Hierarchy) : List Link :=
  (Names.sorted h.names).flatMap fun child => (h.parents child).map (Link.mk child)

/-- The hierarchy of the declared interfaces, unless they inherit from each other in a circle. -/
def ofInterfaces (declared : List Interface) : Except CircularInheritance Hierarchy :=
  match Link.firstClosing (links ⟨effective declared⟩) with
  | some link => .error ⟨link.source, link.target⟩
  | none => .ok ⟨effective declared⟩

/-! ### Queries -/

/-- The declared interfaces above an interface, each parent followed by what is above it. -/
def ancestors (h : Hierarchy) (name : String) : List String :=
  walk h.parents h.names (h.parents name)

/-- Whether an interface or one above it inherits from the marker, which need not be declared. -/
def inherits (h : Hierarchy) (name marker : String) : Bool :=
  (name :: h.ancestors name).any fun n => (h.inherited n).contains marker

/-- The interfaces that inherit from the marker, in the order of declaration. -/
def descendants (h : Hierarchy) (marker : String) : List Interface :=
  h.interfaces.filter fun i => h.inherits i.name marker

/-- An interface and those above it, the interface itself last. -/
def lineage (h : Hierarchy) (name : String) : List String :=
  (h.ancestors name).reverse ++ [name]

/-- The functions of an interface and of those above it, each of the same functions once. -/
def transitiveFunctions (h : Hierarchy) (name : String) : List Signature :=
  ((h.lineage name).flatMap h.functions).eraseDups

end Hierarchy

end Wiring
