import Wiring.Proofs.Assembly.Suppression

/-!
# Which provide function is in force

Of the provide functions for a type, the last one among the functions of the lineage is in force.
A function that is declared again counts only where the lineage declares it first, so what matters
is what each interface adds to those in front of it (`Hierarchy.transitiveFunctions_eq_flatMap`).

The most derived interface that adds a function for the type prevails over those above it
(`Assembly.provided_of_mostDerived`), as long as they stand in front of it. The functions that a
provider adds itself always prevail (`Assembly.provided_of_own`).
-/

namespace Wiring

open Sameness

variable {settings : Settings} {h : Hierarchy} {name p q x : String} {f : Signature}

/-- Whether a function is a provide function for the type. -/
def Settings.provides (settings : Settings) (typeName : String) (f : Signature) : Bool :=
  settings.isProvide f && settings.constructs typeName f

namespace Hierarchy

/-! ### Added functions -/

/-- The interfaces of the lineage of `name` that stand in front of `q`. -/
def inFront (h : Hierarchy) (name q : String) : List String :=
  (h.lineage name).takeWhile (· != q)

/-- The functions of `q` that no interface in front of it in the lineage of `name` declares, each
of the same functions once. -/
def addedFunctions (h : Hierarchy) (name q : String) : List Signature :=
  ((h.functions q).removeAll ((h.inFront name q).flatMap h.functions)).eraseDups

/-- The functions of a lineage are those that its interfaces add, one after the other. -/
theorem transitiveFunctions_eq_flatMap (hacyclic : ¬ Link.Cyclic h.links) :
    h.transitiveFunctions name = (h.lineage name).flatMap (h.addedFunctions name) :=
  eraseDups_flatMap (nodup_lineage hacyclic) h.functions

/-- Of the interfaces in the lineage of `name`, the most derived one with a provide function for
the type is `p`, and `f` is the last such function of it. What counts as a function of an interface
is given. -/
structure MostDerived (h : Hierarchy) (settings : Settings) (functions : String → List Signature)
    (name x p : String) (f : Signature) : Prop where
  mem_lineage : p ∈ h.lineage name
  getLast?_eq : ((functions p).filter (settings.provides x)).getLast? = some f
  mem_ancestors : ∀ q ∈ h.lineage name, q ≠ p → (functions q).any (settings.provides x) = true →
    q ∈ h.ancestors p

/-! ### The last added function -/

lemma filter_flatMap_eq_nil {functions : String → List Signature} {names : List String}
    (hnone : ∀ q ∈ names, (functions q).any (settings.provides x) = false) :
    (names.flatMap functions).filter (settings.provides x) = [] := by
  rw [List.filter_eq_nil_iff]
  intro f hf
  obtain ⟨q, hq, hfq⟩ := List.mem_flatMap.1 hf
  exact List.any_eq_false.1 (hnone q hq) f hfq

/-- The last interface of the lineage that adds a provide function for the type decides. -/
lemma getLast?_provideFunctions (hacyclic : ¬ Link.Cyclic h.links) {before after : List String}
    (hsplit : h.lineage name = before ++ p :: after)
    (hafter : ∀ q ∈ after, (h.addedFunctions name q).any (settings.provides x) = false)
    (hf : ((h.addedFunctions name p).filter (settings.provides x)).getLast? = some f) :
    ((h.provideFunctions settings name).filter (settings.constructs x)).getLast? = some f := by
  have hprovides : (h.provideFunctions settings name).filter (settings.constructs x) =
      (h.transitiveFunctions name).filter (settings.provides x) := by
    rw [provideFunctions, List.filter_filter]
    exact List.filter_congr fun f _ => Bool.and_comm _ _
  rw [hprovides, transitiveFunctions_eq_flatMap hacyclic, hsplit, List.flatMap_append,
    List.flatMap_cons, List.filter_append, List.filter_append, filter_flatMap_eq_nil hafter,
    List.append_nil, List.getLast?_append, hf]
  rfl

end Hierarchy

namespace Assembly

variable {injectables : List Injectable} {a : Assembly} {r : Resolver} {m : Manifest}

/-! ### The node of the type -/

/-- The node of a type is built by the last function that the lineage adds for it. -/
theorem Composed.provided_of_added (ha : a.Composed settings h injectables) (hr : r ∈ a.resolvers)
    {before after : List String} (hsplit : h.lineage r.provider.name = before ++ p :: after)
    (hafter : ∀ q ∈ after,
      (h.addedFunctions r.provider.name q).any (settings.provides x) = false)
    (hf : ((h.addedFunctions r.provider.name p).filter (settings.provides x)).getLast? = some f) :
    ∃ n, r.graph.node? x = some n ∧ n.kind = .provided ∧ n.constructor = f :=
  Graph.provided_of_getLast? (ha.build_graph hr)
    (Hierarchy.getLast?_provideFunctions ha.not_cyclic hsplit hafter hf)

/-- The functions that a provider adds itself prevail over all inherited ones. -/
theorem provided_of_own (hcompose : compose settings m = .ok a)
    (hh : Hierarchy.ofInterfaces m.interfaces = .ok h) (hr : r ∈ a.resolvers)
    (hf : ((h.addedFunctions r.provider.name r.provider.name).filter
      (settings.provides x)).getLast? = some f) :
    ∃ n, r.graph.node? x = some n ∧ n.kind = .provided ∧ n.constructor = f := by
  obtain ⟨injectables, ha⟩ := composed_of_ofInterfaces hcompose hh
  exact ha.provided_of_added hr rfl (by simp) hf

/-- The most derived interface that adds a provide function for a type prevails over those above
it, if they stand in front of it in the lineage of the provider. -/
theorem provided_of_mostDerived (hcompose : compose settings m = .ok a)
    (hh : Hierarchy.ofInterfaces m.interfaces = .ok h) (hr : r ∈ a.resolvers)
    (hp : h.MostDerived settings (h.addedFunctions r.provider.name) r.provider.name x p f)
    (hfront : ∀ q ∈ h.ancestors p,
      (h.addedFunctions r.provider.name q).any (settings.provides x) = true →
      q ∈ h.inFront r.provider.name p) :
    ∃ n, r.graph.node? x = some n ∧ n.kind = .provided ∧ n.constructor = f := by
  obtain ⟨injectables, ha⟩ := composed_of_ofInterfaces hcompose hh
  obtain ⟨before, after, hsplit⟩ := List.append_of_mem hp.mem_lineage
  have hnodup : (before ++ p :: after).Nodup := hsplit ▸ Hierarchy.nodup_lineage ha.not_cyclic
  obtain ⟨_, hlate, hdisjoint⟩ := List.nodup_append.1 hnodup
  refine ha.provided_of_added hr hsplit ?_ hp.getLast?_eq
  intro q hq
  rw [← Bool.not_eq_true]
  intro hadds
  -- an interface behind `p` that adds a function would be above it and stand in front of it
  have hqp : q ≠ p := fun heq => (List.nodup_cons.1 hlate).1 (heq ▸ hq)
  have hmem : q ∈ h.lineage r.provider.name := by simp [hsplit, hq]
  have habove := hfront q (hp.mem_ancestors q hmem hqp hadds) hadds
  rw [Hierarchy.inFront, hsplit, takeWhile_ne_append_cons] at habove
  · exact hdisjoint q habove q (List.mem_cons_of_mem p hq) rfl
  · exact fun hp => hdisjoint p hp p List.mem_cons_self rfl

/-- A resolver of a run with the default settings that is found by evaluation. -/
lemma exists_resolver (m : Manifest) (name : String) (p : Resolver → Bool)
    (hfound : (compose {} m).toOption.any (fun a =>
      a.resolvers.any fun r => r.provider.name == name && p r) = true) :
    ∃ a r, compose {} m = .ok a ∧ r ∈ a.resolvers ∧ r.provider.name = name ∧ p r = true := by
  obtain ⟨a, r, hcompose, hr, hfound⟩ :=
    exists_resolver_of_any m (fun _ r => r.provider.name == name && p r) hfound
  rw [Bool.and_eq_true, beq_iff_eq] at hfound
  exact ⟨a, r, hcompose, hr, hfound⟩

/-- In the diamond the lowest provider replaces a function of one above it. -/
theorem provided_of_mostDerived_diamond : ∃ a h r f, compose {} diamond = .ok a ∧
    Hierarchy.ofInterfaces diamond.interfaces = .ok h ∧ r ∈ a.resolvers ∧
    h.MostDerived {} (h.addedFunctions r.provider.name) r.provider.name "Store" "Leaf" f ∧
    (h.addedFunctions r.provider.name "Left").any (Settings.provides {} "Store") = true ∧
    ∃ n, r.graph.node? "Store" = some n ∧ n.kind = .provided ∧ n.constructor = f := by
  obtain ⟨a, r, hcompose, hr, hname, _⟩ :=
    exists_resolver diamond "Leaf" (fun _ => true) (by decide +kernel)
  have hh : Hierarchy.ofInterfaces diamond.interfaces =
      .ok ⟨Hierarchy.effective diamond.interfaces⟩ := by
    decide +kernel
  have hmost : Hierarchy.MostDerived ⟨Hierarchy.effective diamond.interfaces⟩ {}
      (Hierarchy.addedFunctions ⟨Hierarchy.effective diamond.interfaces⟩ "Leaf") "Leaf" "Store"
      "Leaf" { name := "provideStore", arguments := [⟨"size", none, "Int"⟩],
               returnTypeName := some "any Store" } := by
    constructor <;> decide +kernel
  refine ⟨a, _, r, _, hcompose, hh, hr, hname ▸ hmost, ?_,
    provided_of_mostDerived hcompose hh hr (hname ▸ hmost) ?_⟩
  · rw [hname]
    decide +kernel
  · rw [hname]
    decide +kernel

/-! ### Declarations that do not prevail -/

/-- A provide function for a store that takes a path. -/
def pathStore (name : String) : Signature where
  name := name
  arguments := [⟨"path", none, "String"⟩]
  returnTypeName := some "Store"

/-- A provide function for a store that takes a size. -/
def sizeStore (name : String) : Signature where
  name := name
  arguments := [⟨"size", none, "Int"⟩]
  returnTypeName := some "Store"

/-- A provider that declares an inherited function again behind one of its own. -/
def redeclared : Manifest where
  interfaces :=
    [{ name := "Base", inherited := ["Provider"], functions := [pathStore "provideStore"] },
      { name := "Leaf", inherited := ["Base"],
        functions := [sizeStore "provideCache", pathStore "provideStore"] }]

/-- A provider that names a parent behind what is above that parent. -/
def shortcut : Manifest where
  interfaces :=
    [{ name := "Base", inherited := ["Provider"], functions := [sizeStore "provideBase"] },
      { name := "Left", inherited := ["Base"], functions := [pathStore "provideLeft"] },
      { name := "Leaf", inherited := ["Base", "Left"] }]

/-- That an interface is the most derived one to declare a function for the type does not suffice.
A function that it declares again counts where it was declared first, and an interface above it can
stand behind it in the lineage. -/
theorem mostDerived_declaration_not_in_force :
    (∃ a h r, compose {} redeclared = .ok a ∧
      Hierarchy.ofInterfaces redeclared.interfaces = .ok h ∧ r ∈ a.resolvers ∧
      h.MostDerived {} h.functions r.provider.name "Store" "Leaf" (pathStore "provideStore") ∧
      (r.graph.node? "Store").map Node.constructor = some (sizeStore "provideCache")) ∧
    (∃ a h r, compose {} shortcut = .ok a ∧
      Hierarchy.ofInterfaces shortcut.interfaces = .ok h ∧ r ∈ a.resolvers ∧
      h.MostDerived {} h.functions r.provider.name "Store" "Left" (pathStore "provideLeft") ∧
      (r.graph.node? "Store").map Node.constructor = some (sizeStore "provideBase")) := by
  constructor
  · obtain ⟨a, r, hcompose, hr, hname, hnode⟩ := exists_resolver redeclared "Leaf"
      (fun r => (r.graph.node? "Store").map Node.constructor = some (sizeStore "provideCache"))
      (by decide +kernel)
    have hh : Hierarchy.ofInterfaces redeclared.interfaces =
        .ok ⟨Hierarchy.effective redeclared.interfaces⟩ := by
      decide +kernel
    refine ⟨a, _, r, hcompose, hh, hr, ?_, of_decide_eq_true hnode⟩
    rw [hname]
    constructor <;> decide +kernel
  · obtain ⟨a, r, hcompose, hr, hname, hnode⟩ := exists_resolver shortcut "Leaf"
      (fun r => (r.graph.node? "Store").map Node.constructor = some (sizeStore "provideBase"))
      (by decide +kernel)
    have hh : Hierarchy.ofInterfaces shortcut.interfaces =
        .ok ⟨Hierarchy.effective shortcut.interfaces⟩ := by
      decide +kernel
    refine ⟨a, _, r, hcompose, hh, hr, ?_, of_decide_eq_true hnode⟩
    rw [hname]
    constructor <;> decide +kernel

end Assembly

end Wiring
