import Wiring.Proofs.Expansions
import Wiring.Proofs.Lineage

/-!
# One order behind all queries

An interface can be asked for those above it, whether it extends a marker, what extends it and
which functions it has. Each of these queries goes its own way through the declarations, but all of
them answer from the links between an interface and the declared ones that it lists. In a hierarchy
that has been accepted these links make a strict partial order (`queriesAgree_of_ofInterfaces`).
-/

namespace Wiring.Hierarchy

open Link Relation Sameness

variable {h : Hierarchy} {i : Interface} {name other marker a b c : String} {f : Signature}

/-! ### Links between declarations -/

/-- An interface of this name lists the other one among those that it inherits from, whether that is
declared or not. -/
def Lists (h : Hierarchy) (name other : String) : Prop :=
  ∃ i ∈ h.interfaces, i.name = name ∧ other ∈ i.inherited

/-- An interface lists another one that is declared. -/
def ChildOf (h : Hierarchy) (child parent : String) : Prop :=
  h.Lists child parent ∧ parent ∈ h.names

lemma mem_of_find? (hi : h.find? name = some i) : i ∈ h.interfaces ∧ i.name = name :=
  ⟨List.mem_of_find?_eq_some hi, by simpa using List.find?_some hi⟩

lemma find?_of_mem (hnodup : h.names.Nodup) (hi : i ∈ h.interfaces) : h.find? i.name = some i :=
  find?_key_eq_some hi fun _ hj => List.inj_on_of_nodup_map hnodup hj hi

lemma inherited_of_mem (hnodup : h.names.Nodup) (hi : i ∈ h.interfaces) :
    h.inherited i.name = i.inherited := by
  rw [inherited, find?_of_mem hnodup hi, Option.map_some, Option.getD_some]

lemma functions_of_mem (hnodup : h.names.Nodup) (hi : i ∈ h.interfaces) :
    h.functions i.name = i.functions := by
  rw [functions, find?_of_mem hnodup hi, Option.map_some, Option.getD_some]

lemma exists_of_mem_functions (hf : f ∈ h.functions name) :
    ∃ i ∈ h.interfaces, i.name = name ∧ f ∈ i.functions := by
  rw [functions] at hf
  cases hi : h.find? name with
  | none => simp [hi] at hf
  | some i =>
    obtain ⟨hmem, hname⟩ := mem_of_find? hi
    exact ⟨i, hmem, hname, by simpa [hi] using hf⟩

lemma mem_inherited_iff (hnodup : h.names.Nodup) :
    other ∈ h.inherited name ↔ h.Lists name other := by
  constructor
  · intro hother
    rw [inherited] at hother
    cases hi : h.find? name with
    | none => simp [hi] at hother
    | some i =>
      obtain ⟨hmem, hname⟩ := mem_of_find? hi
      exact ⟨i, hmem, hname, by simpa [hi] using hother⟩
  · rintro ⟨i, hi, rfl, hother⟩
    rwa [inherited_of_mem hnodup hi]

lemma step_links (hnodup : h.names.Nodup) : Step h.links = h.ChildOf := by
  funext child parent
  rw [step_links_iff, parents, List.mem_filter, List.contains_iff_mem, mem_inherited_iff hnodup,
    ChildOf]

/-! ### Ancestors -/

/-- The ancestors are the expansion of the parents with the first of the same ones kept. -/
lemma ancestors_eq_eraseDups (hacyclic : ¬ Cyclic h.links) (name : String) :
    ∃ l, (∀ l', Walk.Expands h.parents (h.parents name) l' ↔ l' = l) ∧
      h.ancestors name = l.eraseDups := by
  have hrank : ∀ a, ∀ b ∈ h.parents a,
      (Link.reachable h.links b).length < (Link.reachable h.links a).length :=
    fun _ _ hb => length_reachable_lt hacyclic (.single (step_links_iff.2 hb))
  obtain ⟨l, hl⟩ := Walk.exists_expands hrank (h.parents name)
  refine ⟨l, fun l' => ⟨fun hl' => hl'.unique hl, fun heq => heq ▸ hl⟩, ?_⟩
  refine Walk.walk_eq_eraseDups hrank (fun a b hab => by rw [eq_of_beq hab]) hl fun a ha => ?_
  rw [List.contains_iff_mem]
  exact hl.forall_mem (fun _ => mem_names_of_mem_parents) (fun _ _ _ => mem_names_of_mem_parents)
    a ha

/-! ### The order -/

/-- To extend a declared interface is to have it among the ancestors. -/
lemma inherits_iff_mem_ancestors (hmarker : marker ∈ h.names) :
    h.inherits name marker = true ↔ marker ∈ h.ancestors name := by
  rw [inherits_iff, mem_ancestors_iff, TransGen.tail'_iff, Extends]
  refine exists_congr fun a => and_congr_right fun _ => ?_
  rw [step_links_iff, parents, List.mem_filter, List.contains_iff_mem, and_iff_left hmarker]

lemma inherits_self (hacyclic : ¬ Cyclic h.links) (name : String) :
    h.inherits name name = false := by
  rw [← Bool.not_eq_true]
  intro hself
  have hname : name ∈ h.names := mem_names_of_extends (inherits_iff.1 hself)
  exact not_mem_ancestors_self hacyclic ((inherits_iff_mem_ancestors hname).1 hself)

lemma inherits_trans (hab : h.inherits a b = true) (hbc : h.inherits b c = true) :
    h.inherits a c = true := by
  rw [inherits_iff] at hbc
  rw [inherits_iff_mem_ancestors (mem_names_of_extends hbc), mem_ancestors_iff] at hab
  exact inherits_iff.2 (hbc.of_transGen hab)

/-- What is asked of a hierarchy is answered from the links between its declarations. -/
structure QueriesAgree (h : Hierarchy) : Prop where
  parents_eq : ∀ i ∈ h.interfaces, h.parents i.name = i.inherited.filter h.names.contains
  mem_ancestors_iff : ∀ name a, a ∈ h.ancestors name ↔ TransGen h.ChildOf name a
  nodup_ancestors : ∀ name, (h.ancestors name).Nodup
  /-- The ancestors stand in the order in which the whole expansion has them first. -/
  ancestors_eq : ∀ name, ∃ l, (∀ l', Walk.Expands h.parents (h.parents name) l' ↔ l' = l) ∧
    h.ancestors name = l.eraseDups
  inherits_iff : ∀ name marker, h.inherits name marker = true ↔
    ∃ a, ReflTransGen h.ChildOf name a ∧ h.Lists a marker
  inherits_iff_mem_ancestors : ∀ name, ∀ marker ∈ h.names,
    (h.inherits name marker = true ↔ marker ∈ h.ancestors name)
  mem_descendants_iff : ∀ marker i, i ∈ h.descendants marker ↔
    i ∈ h.interfaces ∧ h.inherits i.name marker = true
  /-- The descendants stand in the order of declaration. -/
  descendants_sublist : ∀ marker, (h.descendants marker).Sublist h.interfaces
  irrefl : ∀ name, h.inherits name name = false
  trans : ∀ a b c, h.inherits a b = true → h.inherits b c = true → h.inherits a c = true

/-! ### Functions -/

/-- The functions of an interface are collected from it and from its ancestors. -/
structure CollectsFunctions (h : Hierarchy) (name : String) : Prop where
  complete : ∀ i ∈ h.interfaces, i.name = name ∨ i.name ∈ h.ancestors name →
    ∀ f ∈ i.functions, (h.transitiveFunctions name).contains f = true
  /-- No other function is there. -/
  sound : ∀ f ∈ h.transitiveFunctions name,
    ∃ i ∈ h.interfaces, (i.name = name ∨ i.name ∈ h.ancestors name) ∧ f ∈ i.functions
  distinct : (h.transitiveFunctions name).Pairwise fun f g => (f == g) = false
  /-- What the ancestors declare comes first, and behind it what none of them declares. -/
  own_last : ∃ above own, h.transitiveFunctions name = above ++ own ∧
    (∀ f ∈ above, ∃ i ∈ h.interfaces, i.name ∈ h.ancestors name ∧ f ∈ i.functions) ∧
    ∀ f ∈ own, ∀ i ∈ h.interfaces, i.name ∈ h.ancestors name → i.functions.contains f = false

/-- The functions of the ancestors, and then the own ones that are not among them. -/
lemma transitiveFunctions_eq_append (h : Hierarchy) (name : String) :
    h.transitiveFunctions name = ((h.ancestors name).reverse.flatMap h.functions).eraseDups ++
      ((h.functions name).removeAll ((h.ancestors name).reverse.flatMap h.functions)).eraseDups := by
  rw [transitiveFunctions, lineage, List.flatMap_append, List.flatMap_singleton, eraseDups_append]

lemma collectsFunctions (hnodup : h.names.Nodup) (name : String) : h.CollectsFunctions name := by
  constructor
  case complete =>
    intro i hi hname f hf
    refine contains_transitiveFunctions_iff.2 ⟨i.name, mem_lineage_iff.2 hname, ?_⟩
    rw [functions_of_mem hnodup hi]
    exact contains_of_mem hf
  case sound =>
    intro f hf
    obtain ⟨b, hb, hfb⟩ := List.mem_flatMap.1 (mem_of_mem_eraseDups _ hf)
    obtain ⟨i, hi, rfl, hfi⟩ := exists_of_mem_functions hfb
    exact ⟨i, hi, mem_lineage_iff.1 hb, hfi⟩
  case distinct => exact pairwise_eraseDups _
  case own_last =>
    refine ⟨_, _, transitiveFunctions_eq_append h name, ?_, ?_⟩
    · intro f hf
      obtain ⟨b, hb, hfb⟩ := List.mem_flatMap.1 (mem_of_mem_eraseDups _ hf)
      obtain ⟨i, hi, rfl, hfi⟩ := exists_of_mem_functions hfb
      exact ⟨i, hi, List.mem_reverse.1 hb, hfi⟩
    · intro f hf i hi habove
      have hnew := (List.mem_filter.1 (mem_of_mem_eraseDups _ hf)).2
      rw [Bool.not_eq_true', List.elem_eq_contains] at hnew
      rw [← Bool.not_eq_true, ← functions_of_mem hnodup hi]
      intro hcontains
      obtain ⟨g, hg, hfg⟩ := List.contains_iff_exists_mem_beq.1 hcontains
      have hold := List.contains_iff_exists_mem_beq.2
        ⟨g, List.mem_flatMap.2 ⟨i.name, List.mem_reverse.2 habove, hg⟩, hfg⟩
      rw [hnew] at hold
      cases hold

/-! ### Accepted hierarchies -/

/-- In a hierarchy that has been accepted the links between declarations make a strict partial
order, and every query answers from it. -/
theorem queriesAgree_of_ofInterfaces {declared : List Interface}
    (hh : ofInterfaces declared = .ok h) :
    h.QueriesAgree ∧ ∀ name, h.CollectsFunctions name := by
  obtain ⟨heffective, hacyclic⟩ := ofInterfaces_eq_ok_iff.1 hh
  have hnodup : h.names.Nodup := heffective ▸ nodup_names_effective declared
  refine ⟨?_, collectsFunctions hnodup⟩
  constructor
  case parents_eq =>
    intro i hi
    rw [parents, inherited_of_mem hnodup hi]
  case mem_ancestors_iff =>
    intro name a
    rw [mem_ancestors_iff, step_links hnodup]
  case nodup_ancestors => exact nodup_ancestors h
  case ancestors_eq => exact ancestors_eq_eraseDups hacyclic
  case inherits_iff =>
    intro name marker
    rw [inherits_iff, Extends, step_links hnodup]
    simp only [mem_inherited_iff hnodup]
  case inherits_iff_mem_ancestors => exact fun _ _ => inherits_iff_mem_ancestors
  case mem_descendants_iff => exact fun _ _ => List.mem_filter
  case descendants_sublist => exact fun _ => List.filter_sublist
  case irrefl => exact inherits_self hacyclic
  case trans => exact fun _ _ _ => inherits_trans

/-- A leaf that lists one of its parents twice, and a marker that nobody declares, below two
interfaces with the same one above them. -/
def leafOfDiamond : List Interface :=
  let provide (name : String) : Signature := { name := name, returnTypeName := some "Store" }
  [{ name := "Leaf", inherited := ["Left", "Provider", "Left", "Right"],
     functions := [provide "provideLeaf", provide "provideBase"] },
    { name := "Left", inherited := ["Base"], functions := [provide "provideLeft"] },
    { name := "Right", inherited := ["Base", "Provider"] },
    { name := "Base", functions := [provide "provideBase"] }]

/-- The queries about the leaf agree: what it declares again is a function of the base. -/
theorem queriesAgree_leafOfDiamond :
    let h : Hierarchy := ⟨effective leafOfDiamond⟩
    ofInterfaces leafOfDiamond = .ok h ∧ h.ancestors "Leaf" = ["Left", "Base", "Right"] ∧
      (h.descendants "Provider").map Interface.name = ["Leaf", "Right"] ∧
      (h.transitiveFunctions "Leaf").map Signature.name =
        ["provideBase", "provideLeft", "provideLeaf"] ∧
      h.QueriesAgree ∧ ∀ name, h.CollectsFunctions name := by
  intro h
  have hh : ofInterfaces leafOfDiamond = .ok h := by decide +kernel
  exact ⟨hh, by decide +kernel, by decide +kernel, by decide +kernel,
    queriesAgree_of_ofInterfaces hh⟩

end Wiring.Hierarchy
