import Wiring.Proofs.Graph.Execution
import Wiring.Proofs.Graph.Needs
import Wiring.Proofs.Traversal

/-!
# The meaning of resolve functions

A graph describes for each type how its value is put together: its constructor, applied to what
its edges supply. An edge to a parameter supplies the value assigned to the argument, an edge to a
node the value of that node (`tree`).

Running the resolve function of a type gives just this value (`execute_eq_tree`), as long as no
binding name stands for two different arguments among the transitive edges of the type. What
carries the proof is an invariant of the scope: under the name of every edge known so far it holds
what the edge supplies (`Knows`).
-/

namespace Wiring

open Relation Link Sameness Traversal

variable {α : Type*}

/-- What constructs the type of a node: a provide function, or else a member of the type. -/
def Node.maker (n : Node) : Callee :=
  match n.kind with
  | .provided => .function n.constructor.name
  | _ => .member n.constructor.name

namespace Graph

/-- The value of a type by recursion along the edges, at most `depth` nodes deep. -/
def tree (g : Graph) (assigned : List (Argument × Value α)) : ℕ → String → Option (Value α)
  | 0, _ => none
  | depth + 1, t =>
    (g.node? t).bind fun n =>
      (n.edges.mapM fun (e : Edge) =>
        if e.isParameter then assigned.lookup e.argument else g.tree assigned depth e.target).map
        (Value.built t n.maker)

/-- What an edge supplies. -/
def supply (g : Graph) (assigned : List (Argument × Value α)) (depth : ℕ) (e : Edge) :
    Option (Value α) :=
  if e.isParameter then assigned.lookup e.argument else g.tree assigned depth e.target

variable {g : Graph} {assigned : List (Argument × Value α)} {depth : ℕ} {t d : String}
variable {n : Node} {e f : Edge} {a b : Argument} {v : Value α} {values : List (Value α)}
variable {scope : Bindings α} {done edges : List Edge} {rest : Body}

lemma callee_constructorCall (n : Node) : (constructorCall n).callee = n.maker := by
  simp only [constructorCall, Node.maker]
  cases n.kind <;> rfl

/-! ### The tree -/

lemma tree_succ_eq_some_iff (hn : g.node? t = some n) :
    g.tree assigned (depth + 1) t = some v ↔
      ∃ parts, List.Forall₂ (fun e w => g.supply assigned depth e = some w) n.edges parts ∧
        .built t n.maker parts = v := by
  rw [tree, hn, Option.bind_some, Option.map_eq_some_iff]
  simp only [mapM_eq_some_iff, supply]

lemma tree_succ_of_tree (h : g.tree assigned depth t = some v) :
    g.tree assigned (depth + 1) t = some v := by
  induction depth generalizing t v with
  | zero => cases h
  | succ depth ih =>
    cases hn : g.node? t with
    | none => simp [tree, hn] at h
    | some n =>
      obtain ⟨parts, hparts, hv⟩ := (tree_succ_eq_some_iff hn).1 h
      refine (tree_succ_eq_some_iff hn).2 ⟨parts, hparts.imp ?_, hv⟩
      intro e w he
      unfold supply at he ⊢
      split at he
      · rwa [if_pos ‹_›]
      · rw [if_neg ‹_›]
        exact ih he

/-- A tree that has been completed does not change with more depth. -/
lemma tree_mono {depth' : ℕ} (hle : depth ≤ depth') (h : g.tree assigned depth t = some v) :
    g.tree assigned depth' t = some v := by
  induction hle with
  | refl => exact h
  | step _ ih => exact tree_succ_of_tree ih

/-! ### Looking up arguments -/

/-- The arguments are assigned the values, position by position. -/
abbrev Assigns (assigned : List (Argument × Value α)) (arguments : List Argument)
    (values : List (Value α)) : Prop :=
  List.Forall₂ (fun a v => assigned.lookup a = some v) arguments values

lemma lookup_congr (h : (a == b) = true) : assigned.lookup a = assigned.lookup b := by
  induction assigned with
  | nil => rfl
  | cons pair assigned ih =>
    obtain ⟨c, v⟩ := pair
    rw [List.lookup_cons, List.lookup_cons, ih, BEq.congr_left h]

/-- Arguments that differ from each other are assigned the values in their order. -/
lemma assigns_zip {arguments : List Argument}
    (hdistinct : arguments.Pairwise fun a b => (a == b) = false)
    (hlength : arguments.length = values.length) :
    Assigns (arguments.zip values) arguments values := by
  induction arguments generalizing values with
  | nil =>
    rw [List.eq_nil_of_length_eq_zero hlength.symm]
    exact .nil
  | cons a arguments ih =>
    cases values with
    | nil => simp at hlength
    | cons v values =>
      obtain ⟨hhead, htail⟩ := List.pairwise_cons.1 hdistinct
      have hrest := ih htail (by simpa using hlength)
      refine .cons (by simp) ?_
      refine ((List.forall₂_and_left _ _).2 ⟨hhead, hrest⟩).imp ?_
      rintro b w ⟨hab, hb⟩
      rw [BEq.comm] at hab
      rw [List.zip_cons_cons, List.lookup_cons, hab, hb]

lemma fetch_congr (h : a.bindingName = b.bindingName) : scope.fetch a = scope.fetch b := by
  rw [Bindings.fetch, Bindings.fetch, h]

lemma bindingName_eq_of_beq (h : (a == b) = true) : a.bindingName = b.bindingName :=
  (Argument.beq_iff_fields.1 h).2.1

/-- A scope of arguments holds their values if no two of them clash. -/
lemma exists_fetch_zip {arguments : List Argument} (hvalues : Assigns assigned arguments values)
    (ha : a ∈ arguments) (hname : ∀ b ∈ arguments, b.bindingName = a.bindingName →
      assigned.lookup b = assigned.lookup a) :
    ∃ v, assigned.lookup a = some v ∧
      Bindings.fetch ((arguments.map Argument.bindingName).zip values) a = .ok v := by
  induction hvalues with
  | nil => cases ha
  | @cons b w arguments values hb _ ih =>
    simp only [List.map_cons, List.zip_cons_cons, Bindings.fetch, List.lookup_cons]
    by_cases hab : b.bindingName = a.bindingName
    · refine ⟨w, ?_, ?_⟩
      · rw [← hname b List.mem_cons_self hab, hb]
      · simp [hab]
    · have ha' : a ∈ arguments := by
        rcases List.mem_cons.1 ha with rfl | ha
        · exact absurd rfl hab
        · exact ha
      obtain ⟨v, hv, hfetch⟩ := ih ha' fun c hc => hname c (List.mem_cons_of_mem b hc)
      refine ⟨v, hv, ?_⟩
      have hne : (a.bindingName == b.bindingName) = false := by simpa using Ne.symm hab
      simpa [hne, Bindings.fetch] using hfetch

/-! ### What a scope knows -/

/-- The edge is one of a type that links lead to. -/
def Within (g : Graph) (t : String) (e : Edge) : Prop :=
  ∃ d, ReflTransGen (Step g.links) t d ∧ e ∈ g.edgesOf d

/-- No binding name stands for two different arguments in the construction of the type. -/
def Unambiguous (g : Graph) (t : String) : Prop :=
  ∀ e f, g.Within t e → g.Within t f → e.argument.bindingName = f.argument.bindingName →
    (e == f) = true

/-- The scope holds what the edge supplies, under the binding name of its argument. -/
def Agrees (g : Graph) (assigned : List (Argument × Value α)) (depth : ℕ) (scope : Bindings α)
    (e : Edge) : Prop :=
  ∃ v, g.supply assigned depth e = some v ∧ scope.fetch e.argument = .ok v

/-- The scope agrees with all parameters that the type needs and with the given edges. -/
def Knows (g : Graph) (assigned : List (Argument × Value α)) (depth : ℕ) (t : String)
    (scope : Bindings α) (done : List Edge) : Prop :=
  ∀ e, g.Within t e → e.isParameter = true ∨ e ∈ done → g.Agrees assigned depth scope e

lemma Within.of_step (hstep : Step g.links t d) (h : g.Within d e) : g.Within t e := by
  obtain ⟨d', hdd', he⟩ := h
  exact ⟨d', hdd'.head hstep, he⟩

lemma Unambiguous.of_step (h : g.Unambiguous t) (hstep : Step g.links t d) : g.Unambiguous d :=
  fun e f he hf => h e f (he.of_step hstep) (hf.of_step hstep)

lemma unambiguous_of_transitiveEdges (hg : g.WellLinked)
    (hnames : ∀ e ∈ g.transitiveEdges t, ∀ f ∈ g.transitiveEdges t,
      e.argument.bindingName = f.argument.bindingName → (e.argument == f.argument) = true) :
    g.Unambiguous t := by
  -- the transitive edges hold every edge up to sameness
  have htransitive : ∀ e, g.Within t e →
      ∃ e' ∈ g.transitiveEdges t, (e.argument == e'.argument) = true := by
    rintro e ⟨d, htd, he⟩
    have hcontains := (contains_transitiveEdges_iff hg).2 ⟨d, htd, e, he, BEq.rfl⟩
    obtain ⟨e', he', hee'⟩ := List.contains_iff_exists_mem_beq.1 hcontains
    exact ⟨e', he', (edge_beq_iff.1 hee').1⟩
  intro e f he hf hname
  obtain ⟨e', he', hee'⟩ := htransitive e he
  obtain ⟨f', hf', hff'⟩ := htransitive f hf
  have hname' : e'.argument.bindingName = f'.argument.bindingName := by
    rw [← bindingName_eq_of_beq hee', hname, bindingName_eq_of_beq hff']
  have hargument : (e.argument == f.argument) = true :=
    BEq.trans hee' (BEq.trans (hnames e' he' f' hf' hname') (BEq.symm hff'))
  obtain ⟨_, _, he⟩ := he
  obtain ⟨_, _, hf⟩ := hf
  exact hg.beq_of_argument e (mem_edges_of_mem_edgesOf he) f (mem_edges_of_mem_edgesOf hf) hargument

lemma supply_congr (h : (e == f) = true) :
    g.supply assigned depth e = g.supply assigned depth f := by
  obtain ⟨hargument, htarget, hparameter, _⟩ := edge_beq_iff.1 h
  rw [supply, supply, hparameter, lookup_congr hargument, htarget]

/-- Binding what one edge supplies keeps the scope in agreement with another one. -/
lemma Agrees.bind (h : g.Agrees assigned depth scope f) (he : g.supply assigned depth e = some v)
    (hname : f.argument.bindingName = e.argument.bindingName → (f == e) = true) :
    g.Agrees assigned depth ((e.argument.bindingName, v) :: scope) f := by
  obtain ⟨w, hw, hfetch⟩ := h
  by_cases hfe : f.argument.bindingName = e.argument.bindingName
  · refine ⟨v, ?_, ?_⟩
    · rw [supply_congr (hname hfe), he]
    · simp [Bindings.fetch, hfe]
  · refine ⟨w, hw, ?_⟩
    have hne : (f.argument.bindingName == e.argument.bindingName) = false := by simpa using hfe
    simpa [Bindings.fetch, List.lookup_cons, hne] using hfetch

lemma Knows.bind (hunambiguous : g.Unambiguous t) (h : g.Knows assigned depth t scope done)
    (hwithin : g.Within t e) (he : g.supply assigned depth e = some v) :
    g.Knows assigned depth t ((e.argument.bindingName, v) :: scope) (e :: done) := by
  intro f hf hknown
  by_cases hfe : f = e
  · rw [hfe]
    exact ⟨v, he, by simp [Bindings.fetch]⟩
  · have hknown' : f.isParameter = true ∨ f ∈ done := by simpa [hfe] using hknown
    exact (h f hf hknown').bind he (hunambiguous f e hf hwithin)

/-- At the start of a routine the scope holds its arguments. -/
lemma knows_enter (hg : g.WellLinked) (hunambiguous : g.Unambiguous t)
    (hvalues : Assigns assigned (g.requiredArguments t) values) :
    g.Knows assigned depth t
      (((g.requiredArguments t).map Argument.bindingName).zip values) [] := by
  -- every required argument is that of a parameter within the construction
  have hsource : ∀ a ∈ g.requiredArguments t, ∃ e, g.Within t e ∧ (a == e.argument) = true := by
    intro a ha
    obtain ⟨d, htd, e, he, _, hae⟩ := (contains_requiredArguments_iff hg).1 (contains_of_mem ha)
    exact ⟨e, ⟨d, htd, he⟩, hae⟩
  intro e hwithin hknown
  have hparameter : e.isParameter = true := by simpa using hknown
  obtain ⟨d, htd, he⟩ := hwithin
  have hcontains : (g.requiredArguments t).contains e.argument = true :=
    (contains_requiredArguments_iff hg).2 ⟨d, htd, e, he, hparameter, BEq.rfl⟩
  obtain ⟨a, ha, hea⟩ := List.contains_iff_exists_mem_beq.1 hcontains
  have hname : ∀ b ∈ g.requiredArguments t, b.bindingName = a.bindingName →
      assigned.lookup b = assigned.lookup a := by
    intro b hb hba
    obtain ⟨f, hf, hbf⟩ := hsource b hb
    have hfe : f.argument.bindingName = e.argument.bindingName := by
      rw [← bindingName_eq_of_beq hbf, hba, bindingName_eq_of_beq hea]
    have hsame := (edge_beq_iff.1 (hunambiguous f e hf ⟨d, htd, he⟩ hfe)).1
    exact lookup_congr (BEq.trans hbf (BEq.trans hsame hea))
  obtain ⟨v, hv, hfetch⟩ := exists_fetch_zip hvalues ha hname
  refine ⟨v, ?_, ?_⟩
  · rw [supply, if_pos hparameter, lookup_congr hea, hv]
  · rw [fetch_congr (bindingName_eq_of_beq hea), hfetch]

/-- The scope of a type holds what a type that it takes is called with. -/
lemma Knows.exists_arguments (hg : g.WellLinked) (h : g.Knows assigned depth t scope done)
    (hstep : Step g.links t d) :
    ∃ values, Assigns assigned (g.requiredArguments d) values ∧
      (g.requiredArguments d).mapM scope.fetch = .ok values := by
  have hboth : ∀ a ∈ g.requiredArguments d, ∃ v, assigned.lookup a = some v ∧
      scope.fetch a = .ok v := by
    intro a ha
    obtain ⟨d', hdd', e, he, hparameter, hae⟩ :=
      (contains_requiredArguments_iff hg).1 (contains_of_mem ha)
    obtain ⟨v, hv, hfetch⟩ := h e ⟨d', hdd'.head hstep, he⟩ (.inl hparameter)
    rw [supply, if_pos hparameter] at hv
    exact ⟨v, by rw [lookup_congr hae, hv], by rw [fetch_congr (bindingName_eq_of_beq hae), hfetch]⟩
  obtain ⟨values, hvalues⟩ := exists_forall₂ hboth
  exact ⟨values, hvalues.imp fun _ _ h => h.1, mapM_eq_ok_iff.2 (hvalues.imp fun _ _ h => h.2)⟩

/-- A scope that knows all edges of a node holds the arguments of its constructor. -/
lemma Knows.exists_parts (hg : g.WellLinked) (h : g.Knows assigned depth t scope done)
    (hn : g.node? t = some n) (hdone : ∀ e ∈ n.edges, e ∈ done) :
    ∃ parts, List.Forall₂ (fun e v => g.supply assigned depth e = some v) n.edges parts ∧
      n.constructor.arguments.mapM scope.fetch = .ok parts := by
  have hboth : ∀ e ∈ n.edges, g.Agrees assigned depth scope e := by
    intro e he
    exact h e ⟨t, .refl, by rwa [edgesOf_of_node? hn]⟩ (.inr (hdone e he))
  obtain ⟨parts, hparts⟩ := exists_forall₂ hboth
  refine ⟨parts, hparts.imp fun _ _ h => h.1, ?_⟩
  rw [← hg.arguments_eq n (mem_nodes_of_node? hn), List.mapM_map, mapM_eq_ok_iff]
  exact hparts.imp fun _ _ h => h.2

/-! ### Running a body -/

/-- Calls of the resolve function of the type return its tree. -/
def Resolves (g : Graph) (assigned : List (Argument × Value α)) (depth : ℕ) (t : String) : Prop :=
  ∀ values, Assigns assigned (g.requiredArguments t) values →
    ∃ v, g.execute depth (g.resolveCall t) values = .ok v ∧ g.tree assigned depth t = some v

/-- Binding edges one after the other leads to a scope that knows them all, if calls of the
resolve functions behind them return what the edges supply. -/
lemma run_bindEdges (rest : Body) (hg : g.WellLinked) (hunambiguous : g.Unambiguous t)
    (hcalls : ∀ d, Step g.links t d → g.Resolves assigned depth d)
    (hedges : ∀ e ∈ edges, e ∈ g.edgesOf t) (hknows : g.Knows assigned depth t scope done) :
    ∃ scope' done', (g.bindEdges edges rest).run t (g.execute depth) g.intercept scope =
        rest.run t (g.execute depth) g.intercept scope' ∧
      g.Knows assigned depth t scope' done' ∧ ∀ e, e ∈ edges ∨ e ∈ done → e ∈ done' := by
  induction edges generalizing scope done with
  | nil => exact ⟨scope, done, rfl, hknows, by simp⟩
  | cons e edges ih =>
    have he : e ∈ g.edgesOf t := hedges e List.mem_cons_self
    have hwithin : g.Within t e := ⟨t, .refl, he⟩
    have hedges' : ∀ e' ∈ edges, e' ∈ g.edgesOf t :=
      fun e' he' => hedges e' (List.mem_cons_of_mem e he')
    cases hparameter : e.isParameter with
    | true =>
      have hknows' : g.Knows assigned depth t scope (e :: done) := by
        intro f hf hknown
        refine hknows f hf ?_
        rcases hknown with hf' | hf'
        · exact .inl hf'
        · rcases List.mem_cons.1 hf' with rfl | hf'
          · exact .inl hparameter
          · exact .inr hf'
      obtain ⟨scope', done', hrun, hscope', hdone'⟩ := ih hedges' hknows'
      refine ⟨scope', done', ?_, hscope', ?_⟩
      · rw [bindEdges_cons_of_parameter hparameter, hrun]
      · intro e' he'
        apply hdone' e'
        simp only [List.mem_cons] at he' ⊢
        tauto
    | false =>
      have hstep : Step g.links t e.target := hg.step_links_iff.2 ⟨e, he, hparameter, rfl⟩
      obtain ⟨values, hvalues, hfetch⟩ := hknows.exists_arguments hg hstep
      obtain ⟨v, hexecute, htree⟩ := hcalls e.target hstep values hvalues
      have hsupply : g.supply assigned depth e = some v := by
        rw [supply, hparameter]
        exact htree
      obtain ⟨scope', done', hrun, hscope', hdone'⟩ :=
        ih hedges' (hknows.bind hunambiguous hwithin hsupply)
      refine ⟨scope', done', ?_, hscope', ?_⟩
      · have hfetch' : (g.resolveCall e.target).arguments.mapM scope.fetch = .ok values := hfetch
        rw [bindEdges_cons_of_node hparameter, Body.run, hfetch', ← hrun]
        change (g.execute depth (g.resolveCall e.target) values).bind _ = _
        rw [hexecute]
        rfl
      · intro e' he'
        apply hdone' e'
        simp only [List.mem_cons] at he' ⊢
        tauto

/-- A call succeeds if those that it leads to, one level less deep, do. -/
lemma Resolves.step (hg : g.WellLinked) (hunambiguous : g.Unambiguous t) (ht : t ∈ g.typeNames)
    (hcalls : ∀ d, Step g.links t d → g.Resolves assigned depth d) :
    g.Resolves assigned (depth + 1) t := by
  intro values hvalues
  obtain ⟨n, hn⟩ := mem_typeNames_iff.1 ht
  have hedges : ∀ e ∈ n.edges, e ∈ g.edgesOf t := by simp [edgesOf_of_node? hn]
  obtain ⟨scope, done, hrun, hscope, hdone⟩ :=
    run_bindEdges (.give (constructorCall n) .done) hg hunambiguous hcalls hedges
      (knows_enter hg hunambiguous hvalues)
  obtain ⟨parts, hparts, hfetch⟩ := hscope.exists_parts hg hn fun e he => hdone e (.inl he)
  refine ⟨.built t n.maker parts, ?_, (tree_succ_eq_some_iff hn).2 ⟨parts, hparts, rfl⟩⟩
  have hfetch' : (constructorCall n).arguments.mapM scope.fetch = .ok parts := hfetch
  rw [execute_resolveCall hn hvalues.length_eq, hrun, Body.run, hfetch']
  change Except.ok (Value.built t (constructorCall n).callee parts) = _
  rw [callee_constructorCall]

/-- Resolve functions return the tree of their type as soon as the depth exceeds the number of
types within reach, by induction on the depth. -/
lemma resolves_of_length_lt (hg : g.WellLinked) (hunambiguous : g.Unambiguous t)
    (ht : t ∈ g.typeNames) (hdepth : (Link.reachable g.links t).length < depth) :
    g.Resolves assigned depth t := by
  induction depth generalizing t with
  | zero => omega
  | succ depth ih =>
    apply Resolves.step hg hunambiguous ht
    intro d hstep
    have hlt := length_reachable_lt hg.not_cyclic (.single hstep)
    exact ih (hunambiguous.of_step hstep) (hg.links_target_mem _ hstep) (by omega)

/-- Running the resolve function of a type, with as many values as it has arguments, returns the
tree of the type. It neither reads a name that is not in scope nor nests calls without end. -/
theorem execute_eq_tree {settings : Settings} {functions : List Signature}
    {injectables : List Injectable} (h : build settings functions injectables = .ok g)
    (ht : t ∈ g.typeNames)
    (hnames : ∀ e ∈ g.transitiveEdges t, ∀ f ∈ g.transitiveEdges t,
      e.argument.bindingName = f.argument.bindingName → (e.argument == f.argument) = true)
    (hlength : values.length = (g.resolveSignature t).arguments.length) :
    ∃ v, ∀ depth, g.nodes.length ≤ depth →
      g.execute depth
          ⟨.function (g.naming.resolveFunction t), (g.resolveSignature t).arguments⟩ values =
        .ok v ∧
        g.tree ((g.resolveSignature t).arguments.zip values) depth t = some v := by
  have hg : g.WellLinked := wellLinked_of_build h
  have hunambiguous : g.Unambiguous t := unambiguous_of_transitiveEdges hg hnames
  have hvalues : Assigns ((g.resolveSignature t).arguments.zip values) (g.requiredArguments t)
      values :=
    assigns_zip (pairwise_requiredArguments g t) hlength.symm
  have hreachable : (Link.reachable g.links t).length < g.nodes.length := by
    have := length_reachable_lt_length hg.not_cyclic ht hg.links_target_mem
    rwa [typeNames, List.length_map] at this
  obtain ⟨v, _, htree⟩ := resolves_of_length_lt hg hunambiguous ht hreachable values hvalues
  refine ⟨v, ?_⟩
  intro depth hdepth
  have htree' := tree_mono hdepth htree
  obtain ⟨w, hexecute, hw⟩ :=
    resolves_of_length_lt hg hunambiguous ht (Nat.lt_of_lt_of_le hreachable hdepth) values hvalues
  -- the depth does not matter for the tree, and so not for the value of the run
  obtain rfl : w = v := Option.some.inj (hw.symm.trans htree')
  exact ⟨hexecute, htree'⟩

/-- Two types that take the same provided value, each under a name of its own. -/
theorem execute_eq_tree_of_shared_part :
    let functions : List Signature :=
      [{ name := "provideStore", arguments := [⟨"count", none, "Int"⟩],
         returnTypeName := some "any Store" }]
    let injectables : List Injectable :=
      [⟨"App", { name := "init", arguments := [⟨"left", none, "Left"⟩, ⟨"right", none, "Right"⟩] }⟩,
        ⟨"Left", { name := "init", arguments := [⟨"in", some "store", "any Store"⟩] }⟩,
        ⟨"Right", { name := "init",
                    arguments := [⟨"from", some "shared", "Store"⟩, ⟨"title", none, "String"⟩] }⟩]
    let g := ofRecipes {} (Recipe.all {} functions injectables)
    let store : Value ℕ := .built "Store" (.function "provideStore") [.given 3]
    build {} functions injectables = .ok g ∧
      ∀ depth, g.nodes.length ≤ depth →
        g.execute depth
            ⟨.function "resolveApp", [⟨"count", none, "Int"⟩, ⟨"title", none, "String"⟩]⟩
            [.given 3, .given 5] =
          .ok (.built "App" (.member "init")
            [.built "Left" (.member "init") [store],
              .built "Right" (.member "init") [store, .given 5]]) := by
  intro functions injectables g store
  have h : build {} functions injectables = .ok g := by decide +kernel
  have hg : g = ⟨[⟨"App", .injected, injectables[0].constructor,
          [⟨⟨"left", none, "Left"⟩, "Left", .injected⟩,
            ⟨⟨"right", none, "Right"⟩, "Right", .injected⟩]⟩,
        ⟨"Left", .injected, injectables[1].constructor,
          [⟨⟨"in", some "store", "any Store"⟩, "Store", .provided⟩]⟩,
        ⟨"Right", .injected, injectables[2].constructor,
          [⟨⟨"from", some "shared", "Store"⟩, "Store", .provided⟩,
            ⟨⟨"title", none, "String"⟩, "String", .parameter⟩]⟩,
        ⟨"Store", .provided, functions[0],
          [⟨⟨"count", none, "Int"⟩, "Int", .parameter⟩]⟩], {}⟩ := by decide +kernel
  have ht : "App" ∈ g.typeNames := by decide +kernel
  have harguments : (g.resolveSignature "App").arguments =
      [⟨"count", none, "Int"⟩, ⟨"title", none, "String"⟩] := by decide +kernel
  have hlength : ([.given 3, .given 5] : List (Value ℕ)).length =
      (g.resolveSignature "App").arguments.length := by
    rw [harguments]
    rfl
  obtain ⟨v, hv⟩ := execute_eq_tree h ht (by decide +kernel) hlength
  have htree : g.tree ((g.resolveSignature "App").arguments.zip [.given 3, .given 5]) 4 "App" =
      some (.built "App" (.member "init")
        [.built "Left" (.member "init") [store],
          .built "Right" (.member "init") [store, .given 5]]) := by
    rw [harguments, hg]
    rfl
  obtain rfl := Option.some.inj ((hv 4 (by decide +kernel)).2.symm.trans htree)
  refine ⟨h, ?_⟩
  intro depth hdepth
  have hexecute := (hv depth hdepth).1
  rwa [harguments] at hexecute

end Graph

end Wiring
