import Wiring.Walk

/-!
# Links between names

A link leads from one name to another. Links are laid one after the other; the first one that
would close a circle is the answer of `firstClosing`.
-/

namespace Wiring

/-- A link from one name to another. -/
structure Link where
  source : String
  target : String
deriving DecidableEq, Repr, Inhabited

namespace Link

/-- The targets of the links that leave a name, in the order of the links. -/
def successors (links : List Link) (name : String) : List String :=
  (links.filter fun link => link.source = name).map Link.target

/-- The names that one or more links lead to. -/
def reachable (links : List Link) (name : String) : List String :=
  walk (successors links) (links.map Link.target) (successors links name)

/-- Whether a link closes a circle with the links before it. -/
def closes (earlier : List Link) (link : Link) : Bool :=
  link.target == link.source || (reachable earlier link.target).contains link.source

/-- The first of the links that closes a circle with the earlier ones and those before it. -/
def firstClosingAfter (earlier : List Link) : List Link → Option Link
  | [] => none
  | link :: later =>
    if closes earlier link then some link else firstClosingAfter (earlier ++ [link]) later

/-- The first of the links that closes a circle with those before it. -/
def firstClosing (links : List Link) : Option Link :=
  firstClosingAfter [] links

@[simp] theorem firstClosing_nil : firstClosing [] = none := rfl

@[simp] theorem mem_successors {links : List Link} {name target : String} :
    target ∈ successors links name ↔ ⟨name, target⟩ ∈ links := by
  simp only [successors, List.mem_map, List.mem_filter, decide_eq_true_eq]
  constructor
  · rintro ⟨⟨_, _⟩, ⟨h, rfl⟩, rfl⟩
    exact h
  · exact fun h => ⟨⟨name, target⟩, ⟨h, rfl⟩, rfl⟩

end Link

end Wiring
