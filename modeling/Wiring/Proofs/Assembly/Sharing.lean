import Wiring.Proofs.Assembly.Composition
import Wiring.Proofs.Assembly.Suppression

/-!
# Members from several inherited resolvers

A resolver leaves out what it inherits, but it knows nothing of resolvers that neither extend it
nor are extended by it. So a resolver that extends two of them gets a member from both where both of
their graphs have it and nothing above either of them has it (`members_of_two_parents`). All graphs
have the injectable types, so this happens to each of these types as soon as there are two resolvers
at the top (`Composed.intercepts_injectable_iff`).

A member has a single default implementation just if one of the resolvers whose graphs have it is
inherited by all the others of them (`sharedOut_of_compose`).
-/

namespace Wiring

open Sameness

variable {settings : Settings} {h : Hierarchy} {injectables : List Injectable}

/-! ### Counting -/

section Counting

variable {α β : Type*} {l : List α} {P : α → Prop} {f : α → List β}

lemma length_filter_eq_one_iff [DecidablePred P] (hnodup : l.Nodup) :
    (l.filter P).length = 1 ↔ ∃! x, x ∈ l ∧ P x := by
  have hmem : ∀ x, x ∈ l.filter P ↔ x ∈ l ∧ P x := by simp
  rw [List.length_eq_one_iff]
  apply exists_congr
  intro x
  simp only [← hmem]
  constructor
  · intro hsingle
    simp [hsingle]
  · rintro ⟨hx, hunique⟩
    rw [← List.perm_singleton,
      List.perm_ext_iff_of_nodup (hnodup.filter _) (List.nodup_singleton x)]
    intro y
    rw [List.mem_singleton]
    exact ⟨hunique y, fun hy => hy ▸ hx⟩

lemma length_filter_eq_one {p : α → Bool} {x : α}
    (hdistinct : l.Pairwise fun x y => ¬ (p x = true ∧ p y = true)) (hx : x ∈ l)
    (hpx : p x = true) : (l.filter p).length = 1 := by
  induction hdistinct with
  | nil => cases hx
  | @cons y l hy _ ih =>
    by_cases hpy : p y = true
    · have hnone : l.filter p = [] :=
        List.filter_eq_nil_iff.2 fun z hz hpz => hy z hz ⟨hpy, hpz⟩
      rw [List.filter_cons_of_pos hpy, hnone, List.length_singleton]
    · rw [List.filter_cons_of_neg hpy]
      exact ih ((List.mem_cons.1 hx).resolve_left fun heq => hpy (heq ▸ hpx))

/-- There is one element in all just if one of the lists has an element. -/
lemma length_flatMap_eq_one_iff (hnodup : l.Nodup) (hone : ∀ x ∈ l, P x → (f x).length = 1)
    (hnone : ∀ x ∈ l, ¬ P x → f x = []) : (l.flatMap f).length = 1 ↔ ∃! x, x ∈ l ∧ P x := by
  classical
  rw [← length_filter_eq_one_iff hnodup]
  suffices (l.flatMap f).length = (l.filter P).length by rw [this]
  clear hnodup
  induction l with
  | nil => rfl
  | cons x l ih =>
    obtain ⟨hxone, hone⟩ := List.forall_mem_cons.1 hone
    obtain ⟨hxnone, hnone⟩ := List.forall_mem_cons.1 hnone
    rw [List.flatMap_cons, List.length_append, ih hone hnone]
    by_cases hx : P x
    · simp [hx, hxone hx, Nat.add_comm]
    · simp [hx, hxnone hx]

end Counting

namespace Assembly

variable {a : Assembly} {r p q : Resolver} {s : Signature} {t : String} {m : Manifest}
variable {P : Resolver → Prop}

/-! ### Topmost resolvers -/

/-- The resolver has the property, and it inherits from none that has it. -/
def Topmost (a : Assembly) (P : Resolver → Prop) (p : Resolver) : Prop :=
  P p ∧ ∀ q ∈ a.transitiveParents p, ¬ P q

namespace Composed

lemma not_mem_transitiveParents_self (ha : a.Composed settings h injectables)
    (hr : r ∈ a.resolvers) : r ∉ a.transitiveParents r :=
  fun hmem => Hierarchy.not_mem_ancestors_self ha.not_cyclic (ha.mem_ancestors hr hmem)

/-- There is a single topmost resolver with a property just if one with the property is inherited by
all the others. -/
theorem existsUnique_topmost_iff (ha : a.Composed settings h injectables) (hr : r ∈ a.resolvers) :
    (∃! p, p ∈ r :: a.transitiveParents r ∧ a.Topmost P p) ↔
      ∃ p ∈ r :: a.transitiveParents r, P p ∧
        ∀ q ∈ r :: a.transitiveParents r, P q → q ≠ p → p ∈ a.transitiveParents q := by
  constructor
  · rintro ⟨p, ⟨hp, hPp, _⟩, hunique⟩
    refine ⟨p, hp, hPp, fun q hq hPq hne => ?_⟩
    obtain ⟨p', hp', htop⟩ := ha.exists_topmost P (ha.mem_resolvers_of_cons hr hq) hPq
    obtain rfl : p' = p := hunique p' ⟨ha.cons_transitiveParents_subset hr hq hp', htop⟩
    exact (List.mem_cons.1 hp').resolve_left (Ne.symm hne)
  · rintro ⟨p, hp, hPp, hinherited⟩
    have hpr := ha.mem_resolvers_of_cons hr hp
    have hself := ha.not_mem_transitiveParents_self hpr
    refine ⟨p, ⟨hp, hPp, fun q hq hPq => ?_⟩, fun q ⟨hq, hPq, htop⟩ => ?_⟩
    · -- a second one above would inherit from the one that it is above of
      have hne : q ≠ p := fun heq => hself (heq ▸ hq)
      have hqr := ha.cons_transitiveParents_subset hr hp (List.mem_cons_of_mem _ hq)
      exact hself (ha.transitiveParents_trans hpr hq (hinherited q hqr hPq hne))
    · by_contra hne
      exact htop p (hinherited q hq hPq hne) hPp

/-- An injectable type gets its intercept function from each resolver at the top. -/
theorem intercepts_injectable_iff (ha : a.Composed settings h injectables) (hr : r ∈ a.resolvers)
    {i : Injectable} (hi : i ∈ injectables) :
    a.Intercepts r i.typeName ↔ a.transitiveParents r = [] := by
  have hall : ∀ p ∈ a.resolvers, i.typeName ∈ p.graph.typeNames :=
    fun p hp => (Graph.mem_typeNames_of_build (ha.build_graph hp)).2 (.inl ⟨i, hi, rfl⟩)
  rw [ha.intercepts_iff hr, mem_interceptableTypeNames_iff, and_iff_right (hall r hr),
    List.eq_nil_iff_forall_not_mem]
  exact forall_congr' fun p =>
    ⟨fun hnone hp => hnone hp (hall p (ha.mem_resolvers hr hp)), fun hnone hp => absurd hp hnone⟩

end Composed

/-! ### Default implementations -/

/-- The resolve functions with a signature that a resolver defines. -/
def resolveDefaults (a : Assembly) (s : Signature) (r : Resolver) : List Routine :=
  (a.resolveRoutines r).filter fun routine => s == routine.signature

/-- The intercept functions for a type that a resolver defines. -/
def interceptDefaults (a : Assembly) (t : String) (r : Resolver) : List Routine :=
  (a.interceptRoutines r).filter fun routine =>
    routine.signature.name == a.naming.interceptFunction t

lemma resolveDefaults_eq_nil (hnone : ¬ (a.resolveSignatures r).contains s = true) :
    a.resolveDefaults s r = [] := by
  rw [resolveDefaults, List.filter_eq_nil_iff]
  intro routine hroutine hsame
  apply hnone
  rw [← map_signature_resolveRoutines, List.contains_iff_exists_mem_beq]
  exact ⟨_, List.mem_map_of_mem hroutine, hsame⟩

lemma length_resolveDefaults (hg : r.graph.WellLinked)
    (hdeclares : (a.resolveSignatures r).contains s = true) :
    (a.resolveDefaults s r).length = 1 := by
  have hdistinct := pairwise_resolveSignatures (a := a) hg
  rw [← map_signature_resolveRoutines] at hdistinct hdeclares
  obtain ⟨_, hmem, hsame⟩ := List.contains_iff_exists_mem_beq.1 hdeclares
  obtain ⟨routine, hroutine, rfl⟩ := List.mem_map.1 hmem
  refine length_filter_eq_one ((List.pairwise_map.1 hdistinct).imp ?_) hroutine hsame
  rintro x y hne ⟨hx, hy⟩
  rw [BEq.trans (BEq.symm hx) hy] at hne
  cases hne

lemma interceptDefaults_eq_nil (hnone : ¬ a.Intercepts r t) : a.interceptDefaults t r = [] := by
  rw [interceptDefaults, List.filter_eq_nil_iff]
  intro routine hroutine hname
  apply hnone
  rw [Intercepts, ← map_signature_interceptRoutines]
  exact ⟨_, List.mem_map_of_mem hroutine, by simpa using hname⟩

lemma length_interceptDefaults (hg : r.graph.WellLinked) (hdeclares : a.Intercepts r t) :
    (a.interceptDefaults t r).length = 1 := by
  rw [Intercepts, ← map_signature_interceptRoutines] at hdeclares
  obtain ⟨_, hmem, hname⟩ := hdeclares
  obtain ⟨routine, hroutine, rfl⟩ := List.mem_map.1 hmem
  refine length_filter_eq_one ?_ hroutine (by simpa using hname)
  have hnodup : (a.interceptableTypeNames r).Nodup := hg.nodup_typeNames.filter _
  rw [interceptRoutines, List.pairwise_map]
  apply hnodup.imp
  rintro x y hne ⟨hx, hy⟩
  rw [beq_iff_eq] at hx hy
  exact hne (Graph.interceptFunction_injective r.graph.naming (hx.trans hy.symm))

/-- How a member comes to a resolver: which graphs have it, which resolvers declare it, and what
implements it there. -/
structure SharedOut (a : Assembly) (r : Resolver) (has declares : Resolver → Prop)
    (defaults : Resolver → List Routine) : Prop where
  both_iff : ∀ p ∈ a.transitiveParents r, ∀ q ∈ a.transitiveParents r, declares p ∧ declares q ↔
    has p ∧ has q ∧ ∀ q' ∈ a.transitiveParents p ++ a.transitiveParents q, ¬ has q'
  /-- No two resolvers declare it of which one inherits from the other, or both inherit it. -/
  not_both : ∀ p ∈ a.transitiveParents r, ∀ q ∈ a.transitiveParents r,
    p ∈ a.transitiveParents q ∨
        (∃ q' ∈ a.transitiveParents p, q' ∈ a.transitiveParents q ∧ has q') →
      ¬ (declares p ∧ declares q)
  once_iff : ((r :: a.transitiveParents r).flatMap defaults).length = 1 ↔
    ∃ p ∈ r :: a.transitiveParents r, has p ∧
      ∀ q ∈ r :: a.transitiveParents r, has q → q ≠ p → p ∈ a.transitiveParents q

namespace Composed

lemma nodup_cons_transitiveParents (ha : a.Composed settings h injectables)
    (hr : r ∈ a.resolvers) (hnodup : (a.resolvers.map (·.provider.name)).Nodup) :
    (r :: a.transitiveParents r).Nodup :=
  List.nodup_cons.2 ⟨ha.not_mem_transitiveParents_self hr, hnodup.of_map.filter _⟩

/-- What the topmost resolvers declare, once each, is shared out. -/
lemma sharedOut (ha : a.Composed settings h injectables) (hr : r ∈ a.resolvers)
    (hnodup : (a.resolvers.map (·.provider.name)).Nodup) {has declares : Resolver → Prop}
    {defaults : Resolver → List Routine}
    (hdeclares : ∀ p ∈ a.resolvers, declares p ↔ a.Topmost has p)
    (hone : ∀ p ∈ a.resolvers, declares p → (defaults p).length = 1)
    (hnone : ∀ p, ¬ declares p → defaults p = []) : a.SharedOut r has declares defaults := by
  constructor
  case both_iff =>
    intro p hp q hq
    rw [hdeclares p (ha.mem_resolvers hr hp), hdeclares q (ha.mem_resolvers hr hq),
      List.forall_mem_append, Topmost, Topmost, and_and_and_comm, and_assoc]
  case not_both =>
    rintro p hp q hq habove ⟨hdp, hdq⟩
    obtain ⟨hp, hptop⟩ := (hdeclares p (ha.mem_resolvers hr hp)).1 hdp
    obtain ⟨_, hqtop⟩ := (hdeclares q (ha.mem_resolvers hr hq)).1 hdq
    rcases habove with hpq | ⟨q', hq'p, _, hq'⟩
    · exact hqtop p hpq hp
    · exact hptop q' hq'p hq'
  case once_iff =>
    have hresolvers : ∀ p ∈ r :: a.transitiveParents r, p ∈ a.resolvers :=
      fun _ hp => ha.mem_resolvers_of_cons hr hp
    rw [length_flatMap_eq_one_iff (ha.nodup_cons_transitiveParents hr hnodup)
      (fun p hp => hone p (hresolvers p hp)) (fun p _ => hnone p), ← ha.existsUnique_topmost_iff hr]
    exact existsUnique_congr fun p => and_congr_right fun hp => hdeclares p (hresolvers p hp)

end Composed

/-- Members come from one inherited resolver as far as these inherit from each other. -/
theorem sharedOut_of_compose (hcompose : compose settings m = .ok a) (hr : r ∈ a.resolvers) :
    (∀ s, a.SharedOut r (fun p => p.graph.allSignatures.contains s = true)
      (fun p => (a.resolveSignatures p).contains s = true) (a.resolveDefaults s)) ∧
    ∀ t, a.SharedOut r (fun p => t ∈ p.graph.typeNames) (fun p => a.Intercepts p t)
      (a.interceptDefaults t) := by
  obtain ⟨h, injectables, _, ha, hordered⟩ := exists_composed_of_compose hcompose
  constructor
  · intro s
    exact ha.sharedOut hr hordered.nodup (fun _ _ => contains_resolveSignatures_iff)
      (fun p hp => length_resolveDefaults (ha.wellLinked hp)) (fun _ => resolveDefaults_eq_nil)
  · intro t
    exact ha.sharedOut hr hordered.nodup
      (fun p hp => (ha.intercepts_iff hp).trans mem_interceptableTypeNames_iff)
      (fun p hp => length_interceptDefaults (ha.wellLinked hp)) (fun _ => interceptDefaults_eq_nil)

/-- The lowest provider of the diamond inherits from two others that both inherit from a third
one. -/
theorem sharedOut_diamond : ∃ a r, compose {} diamond = .ok a ∧ r ∈ a.resolvers ∧
    (a.transitiveParents r).map (·.provider.name) = ["Base", "Left", "Right"] ∧
    (∀ s, a.SharedOut r (fun p => p.graph.allSignatures.contains s = true)
      (fun p => (a.resolveSignatures p).contains s = true) (a.resolveDefaults s)) ∧
    ∀ t, a.SharedOut r (fun p => t ∈ p.graph.typeNames) (fun p => a.Intercepts p t)
      (a.interceptDefaults t) := by
  obtain ⟨a, r, hcompose, hr, hparents, _⟩ := exists_compose_diamond
  exact ⟨a, r, hcompose, hr, hparents, sharedOut_of_compose hcompose hr⟩

/-- A provider that extends two others that have nothing above them. -/
def fork : Manifest where
  interfaces :=
    [{ name := "Left", inherited := ["Provider"] },
      { name := "Right", inherited := ["Provider"] },
      { name := "Leaf", inherited := ["Left", "Right"] }]
  types :=
    [{ kind := .classType, name := "Log", inherited := ["Injectable"],
       functions := [{ name := "init" }] }]

/-- The lowest provider of the fork inherits the same members from two others, each of which has
default implementations of its own. -/
theorem members_of_two_parents : ∃ a r p q s t, compose {} fork = .ok a ∧ r ∈ a.resolvers ∧
    p ∈ a.transitiveParents r ∧ q ∈ a.transitiveParents r ∧ p ≠ q ∧
    (a.resolveSignatures p).contains s = true ∧ (a.resolveSignatures q).contains s = true ∧
    a.Intercepts p t ∧ a.Intercepts q t ∧
    ((r :: a.transitiveParents r).flatMap (a.resolveDefaults s)).length = 2 ∧
    ((r :: a.transitiveParents r).flatMap (a.interceptDefaults t)).length = 2 := by
  obtain ⟨a, r, hcompose, hr, hfound⟩ := exists_resolver_of_any fork
    (fun a r => ∃ p ∈ a.transitiveParents r, ∃ q ∈ a.transitiveParents r, p ≠ q ∧
      ∃ s ∈ a.resolveSignatures p, (a.resolveSignatures q).contains s = true ∧
        (∃ s ∈ a.interceptSignatures p, s.name = a.naming.interceptFunction "Log") ∧
        (∃ s ∈ a.interceptSignatures q, s.name = a.naming.interceptFunction "Log") ∧
        ((r :: a.transitiveParents r).flatMap (a.resolveDefaults s)).length = 2 ∧
        ((r :: a.transitiveParents r).flatMap (a.interceptDefaults "Log")).length = 2)
    (by decide +kernel)
  obtain ⟨p, hp, q, hq, hne, s, hsp, hsq, hrest⟩ := of_decide_eq_true hfound
  exact ⟨a, r, p, q, s, "Log", hcompose, hr, hp, hq, hne, contains_of_mem hsp, hsq, hrest⟩

end Assembly

end Wiring
