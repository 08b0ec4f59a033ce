import Mathlib.Data.List.Pairwise
import Wiring.Proofs.Graph.Meaning
import Wiring.Proofs.Graph.Routines

/-!
# Clashes of names in resolve functions

The parameters of a resolve function are told apart as whole arguments, but its body reads and
binds them by their binding names alone. Constructors that do not know of each other can therefore
meet under one name: two of their parameters can have the same name, and a binding can take the
name of a parameter. When this happens is said exactly by `ParametersClash` and `BindingCaptures`
(`clashes_iff`). Neither does as long as no binding name stands for two arguments.
-/

namespace Wiring

open Link Relation Sameness

/-- The names that the statements of a body bind. -/
def Body.boundNames : Body → List String
  | .done => []
  | .bind name _ rest => name :: rest.boundNames
  | .intercept _ builder rest => builder.boundNames ++ rest.boundNames
  | .give _ rest => rest.boundNames

/-- The arguments of a function have different binding names. -/
def Signature.BindsDistinct (f : Signature) : Prop :=
  (f.arguments.map Argument.bindingName).Nodup

instance (f : Signature) : Decidable f.BindsDistinct :=
  inferInstanceAs (Decidable (List.Nodup _))

namespace Graph

variable {settings : Settings} {functions : List Signature} {injectables : List Injectable}
variable {g : Graph} {t d name : String} {n : Node} {e e' : Edge} {edges : List Edge} {rest : Body}

/-- Different types within reach of `t` take parameters that are not the same under one name. -/
def ParametersClash (g : Graph) (t : String) : Prop :=
  ∃ d d', d ≠ d' ∧ ReflTransGen (Step g.links) t d ∧ ReflTransGen (Step g.links) t d' ∧
    ∃ e ∈ g.edgesOf d, ∃ e' ∈ g.edgesOf d', e.isParameter = true ∧ e'.isParameter = true ∧
      e.argument.bindingName = e'.argument.bindingName ∧ (e.argument == e'.argument) = false

/-- The type takes another type under the name under which one further down takes a parameter. -/
def BindingCaptures (g : Graph) (t : String) : Prop :=
  ∃ e ∈ g.edgesOf t, e.isParameter = false ∧ ∃ d, TransGen (Step g.links) t d ∧
    ∃ e' ∈ g.edgesOf d, e'.isParameter = true ∧
      e.argument.bindingName = e'.argument.bindingName

/-! ### Names within one constructor -/

/-- Every constructor of the graph has arguments of different binding names. -/
def BindsDistinct (g : Graph) : Prop :=
  ∀ n ∈ g.nodes, n.constructor.BindsDistinct

lemma bindsDistinct_of_build (hg : build settings functions injectables = .ok g)
    (hfunctions : ∀ f ∈ functions, f.BindsDistinct)
    (hinjectables : ∀ i ∈ injectables, i.constructor.BindsDistinct) : g.BindsDistinct := by
  obtain ⟨rfl, _⟩ := build_eq_ok_iff.1 hg
  intro n hn
  obtain ⟨r, hr, rfl⟩ := mem_nodes_ofRecipes hn
  have hr := Recipe.mem_of_find? hr
  rw [Recipe.all, List.mem_append] at hr
  rcases hr with hr | hr
  · obtain ⟨i, hi, rfl⟩ := List.mem_map.1 hr
    exact hinjectables i hi
  · obtain ⟨f, hf, hr⟩ := List.mem_filterMap.1 hr
    obtain ⟨returned, _, rfl⟩ := Option.map_eq_some_iff.1 hr
    exact hfunctions f hf

lemma BindsDistinct.eq_of_bindingName (hdistinct : g.BindsDistinct) (hg : g.WellLinked)
    (he : e ∈ g.edgesOf d) (he' : e' ∈ g.edgesOf d)
    (hname : e.argument.bindingName = e'.argument.bindingName) : e = e' := by
  obtain ⟨n, hn, he⟩ := exists_node?_of_mem_edgesOf he
  rw [edgesOf_of_node? hn] at he'
  have hnames := hdistinct n (mem_nodes_of_node? hn)
  rw [Signature.BindsDistinct, ← hg.arguments_eq n (mem_nodes_of_node? hn), List.map_map] at hnames
  exact List.inj_on_of_nodup_map hnames he he' hname

/-! ### Names of the parameters -/

lemma mem_map_bindingName_iff (hg : g.WellLinked) :
    name ∈ (g.requiredArguments t).map Argument.bindingName ↔
      ∃ d, ReflTransGen (Step g.links) t d ∧
        ∃ e ∈ g.edgesOf d, e.isParameter = true ∧ e.argument.bindingName = name := by
  rw [List.mem_map]
  constructor
  · rintro ⟨a, ha, rfl⟩
    obtain ⟨d, htd, e, he, hparameter, hae⟩ :=
      (contains_requiredArguments_iff hg).1 (contains_of_mem ha)
    exact ⟨d, htd, e, he, hparameter, (bindingName_eq_of_beq hae).symm⟩
  · rintro ⟨d, htd, e, he, hparameter, rfl⟩
    have hcontains := (contains_requiredArguments_iff hg).2 ⟨d, htd, e, he, hparameter, BEq.rfl⟩
    obtain ⟨a, ha, hea⟩ := List.contains_iff_exists_mem_beq.1 hcontains
    exact ⟨a, ha, (bindingName_eq_of_beq hea).symm⟩

/-- Among arguments that are told apart, a name that occurs twice is that of two arguments that
are not the same. -/
lemma not_nodup_bindingName_iff {arguments : List Argument}
    (hpairwise : arguments.Pairwise fun a b => (a == b) = false) :
    ¬ (arguments.map Argument.bindingName).Nodup ↔ ∃ a ∈ arguments, ∃ b ∈ arguments,
      a.bindingName = b.bindingName ∧ (a == b) = false := by
  have hnodup : arguments.Nodup := hpairwise.imp fun hab heq => by simp [heq] at hab
  have : Std.Symm fun a b : Argument => (a == b) = false := ⟨fun a b hab => by rw [BEq.comm, hab]⟩
  rw [List.nodup_map_iff_inj_on hnodup]
  push Not
  constructor
  · rintro ⟨a, ha, b, hb, hname, hab⟩
    exact ⟨a, ha, b, hb, hname, hpairwise.forall ha hb hab⟩
  · rintro ⟨a, ha, b, hb, hname, hab⟩
    exact ⟨a, ha, b, hb, hname, fun heq => by simp [heq] at hab⟩

/-- Two parameters have the same name just if constructors of different types clash. -/
theorem not_nodup_requiredArguments_iff (hg : g.WellLinked) (hdistinct : g.BindsDistinct) :
    ¬ ((g.requiredArguments t).map Argument.bindingName).Nodup ↔ g.ParametersClash t := by
  rw [not_nodup_bindingName_iff (pairwise_requiredArguments g t)]
  constructor
  · rintro ⟨a, ha, b, hb, hname, hab⟩
    obtain ⟨d, htd, e, he, hparameter, hae⟩ :=
      (contains_requiredArguments_iff hg).1 (contains_of_mem ha)
    obtain ⟨d', htd', e', he', hparameter', hbe⟩ :=
      (contains_requiredArguments_iff hg).1 (contains_of_mem hb)
    have hname' : e.argument.bindingName = e'.argument.bindingName := by
      rw [← bindingName_eq_of_beq hae, hname, bindingName_eq_of_beq hbe]
    have hee' : (e.argument == e'.argument) = false := by
      rw [← BEq.congr_left hae, ← BEq.congr_right hbe, hab]
    refine ⟨d, d', ?_, htd, htd', e, he, e', he', hparameter, hparameter', hname', hee'⟩
    -- within one constructor there is only one argument of the name
    rintro rfl
    rw [hdistinct.eq_of_bindingName hg he he' hname', beq_self_eq_true] at hee'
    cases hee'
  · rintro ⟨d, d', _, htd, htd', e, he, e', he', hparameter, hparameter', hname, hee'⟩
    have ha := (contains_requiredArguments_iff hg).2 ⟨d, htd, e, he, hparameter, BEq.rfl⟩
    have hb := (contains_requiredArguments_iff hg).2 ⟨d', htd', e', he', hparameter', BEq.rfl⟩
    obtain ⟨a, ha, hea⟩ := List.contains_iff_exists_mem_beq.1 ha
    obtain ⟨b, hb, heb⟩ := List.contains_iff_exists_mem_beq.1 hb
    refine ⟨a, ha, b, hb, ?_, ?_⟩
    · rw [← bindingName_eq_of_beq hea, hname, bindingName_eq_of_beq heb]
    · rw [← BEq.congr_left hea, ← BEq.congr_right heb, hee']

/-! ### Names that are bound -/

lemma boundNames_bindEdges : (g.bindEdges edges rest).boundNames =
    (edges.filter fun e => !e.isParameter).map (·.argument.bindingName) ++ rest.boundNames := by
  induction edges with
  | nil => rfl
  | cons e edges ih =>
    cases hparameter : e.isParameter with
    | true => simp [bindEdges_cons_of_parameter hparameter, ih, hparameter]
    | false => simp [bindEdges_cons_of_node hparameter, Body.boundNames, ih, hparameter]

lemma mem_boundNames_iff {routine : Routine} (hroutine : g.resolveRoutine? t = some routine) :
    name ∈ routine.body.boundNames ↔
      ∃ e ∈ g.edgesOf t, e.isParameter = false ∧ e.argument.bindingName = name := by
  obtain ⟨n, hn, rfl⟩ := Option.map_eq_some_iff.1 hroutine
  simp only [Body.boundNames, boundNames_bindEdges, List.append_nil, edgesOf_of_node? hn,
    List.mem_map, List.mem_filter, Bool.not_eq_true', and_assoc]

/-- A binding has the name of a parameter just if it captures one further down. -/
theorem exists_mem_boundNames_iff (hg : g.WellLinked) (hdistinct : g.BindsDistinct)
    {routine : Routine} (hroutine : g.resolveRoutine? t = some routine) :
    (∃ name ∈ routine.body.boundNames,
        name ∈ (g.requiredArguments t).map Argument.bindingName) ↔ g.BindingCaptures t := by
  simp only [mem_boundNames_iff hroutine, mem_map_bindingName_iff hg]
  constructor
  · rintro ⟨_, ⟨e, he, hnode, rfl⟩, d, htd, e', he', hparameter, hname⟩
    refine ⟨e, he, hnode, d, ?_, e', he', hparameter, hname.symm⟩
    rcases reflTransGen_iff_eq_or_transGen.1 htd with rfl | htd
    · -- the type itself takes only one argument of the name, and that is no parameter
      rw [hdistinct.eq_of_bindingName hg he' he hname, hnode] at hparameter
      cases hparameter
    · exact htd
  · rintro ⟨e, he, hnode, d, htd, e', he', hparameter, hname⟩
    exact ⟨_, ⟨e, he, hnode, rfl⟩, d, htd.to_reflTransGen, e', he', hparameter, hname.symm⟩

/-! ### Clashes -/

lemma Unambiguous.not_parametersClash (h : g.Unambiguous t) : ¬ g.ParametersClash t := by
  rintro ⟨d, d', _, htd, htd', e, he, e', he', _, _, hname, hee'⟩
  have hsame := (edge_beq_iff.1 (h e e' ⟨d, htd, he⟩ ⟨d', htd', he'⟩ hname)).1
  rw [hsame] at hee'
  cases hee'

lemma Unambiguous.not_bindingCaptures (h : g.Unambiguous t) : ¬ g.BindingCaptures t := by
  rintro ⟨e, he, hnode, d, htd, e', he', hparameter, hname⟩
  obtain ⟨_, _, hsame, _⟩ :=
    edge_beq_iff.1 (h e e' ⟨t, .refl, he⟩ ⟨d, htd.to_reflTransGen, he'⟩ hname)
  rw [hnode, hparameter] at hsame
  cases hsame

/-- When names clash in the resolve function of a type, given that each constructor has arguments of
different binding names. No two parameters are the same argument. Two of them have the same name
just if different types within reach take them, and a binding has the name of a parameter just if a
type further down takes it. Where no binding name stands for two arguments, neither happens. -/
theorem clashes_iff (hg : build settings functions injectables = .ok g)
    (hfunctions : ∀ f ∈ functions, f.BindsDistinct)
    (hinjectables : ∀ i ∈ injectables, i.constructor.BindsDistinct) (ht : t ∈ g.typeNames) :
    ∃ routine, g.resolveRoutine? t = some routine ∧ routine.signature = g.resolveSignature t ∧
      (routine.signature.arguments.Pairwise fun a b => (a == b) = false) ∧
      (¬ (routine.signature.arguments.map Argument.bindingName).Nodup ↔ g.ParametersClash t) ∧
      ((∃ name ∈ routine.body.boundNames,
          name ∈ routine.signature.arguments.map Argument.bindingName) ↔ g.BindingCaptures t) ∧
      ((∀ e ∈ g.transitiveEdges t, ∀ f ∈ g.transitiveEdges t,
          e.argument.bindingName = f.argument.bindingName → (e.argument == f.argument) = true) →
        (routine.signature.arguments.map Argument.bindingName).Nodup ∧
          ∀ name ∈ routine.body.boundNames,
            name ∉ routine.signature.arguments.map Argument.bindingName) := by
  have hlinked := wellLinked_of_build hg
  have hdistinct := bindsDistinct_of_build hg hfunctions hinjectables
  obtain ⟨n, hn⟩ := mem_typeNames_iff.1 ht
  have hroutine := resolveRoutine?_of_node? hn
  have hclash := not_nodup_requiredArguments_iff (t := t) hlinked hdistinct
  have hcapture := exists_mem_boundNames_iff hlinked hdistinct hroutine
  refine ⟨_, hroutine, rfl, pairwise_requiredArguments g t, hclash, hcapture, ?_⟩
  intro hnames
  have hunambiguous := unambiguous_of_transitiveEdges hlinked hnames
  constructor
  · exact not_not.1 (mt hclash.1 hunambiguous.not_parametersClash)
  · intro name hbound hname
    exact hunambiguous.not_bindingCaptures (hcapture.1 ⟨name, hbound, hname⟩)

/-- Two parts that take different parameters under one name. -/
def clashing : List Injectable :=
  [⟨"App", { name := "init", arguments := [⟨"left", none, "Left"⟩, ⟨"right", none, "Right"⟩] }⟩,
    ⟨"Left", { name := "init", arguments := [⟨"id", none, "Int"⟩] }⟩,
    ⟨"Right", { name := "init", arguments := [⟨"id", none, "String"⟩] }⟩]

/-- A part that takes a parameter under the name of the part. -/
def capturing : List Injectable :=
  [⟨"App", { name := "init", arguments := [⟨"store", none, "Store"⟩] }⟩,
    ⟨"Store", { name := "init", arguments := [⟨"store", none, "Int"⟩] }⟩]

/-- The two parameters that clash are those of the two parts. -/
theorem clashes_iff_of_clashing : ∃ g routine, build {} [] clashing = .ok g ∧
    (∀ i ∈ clashing, i.constructor.BindsDistinct) ∧ "App" ∈ g.typeNames ∧
    g.resolveRoutine? "App" = some routine ∧
    (¬ (routine.signature.arguments.map Argument.bindingName).Nodup ↔ g.ParametersClash "App") ∧
    g.ParametersClash "App" := by
  have hg : build {} [] clashing = .ok (ofRecipes {} (Recipe.all {} [] clashing)) := by
    decide +kernel
  have hdistinct : ∀ i ∈ clashing, i.constructor.BindsDistinct := by decide
  have ht : "App" ∈ (ofRecipes {} (Recipe.all {} [] clashing)).typeNames := by decide +kernel
  obtain ⟨routine, hroutine, hsignature, _, hclash, _⟩ := clashes_iff hg (by simp) hdistinct ht
  refine ⟨_, routine, hg, hdistinct, ht, hroutine, hclash, hclash.1 ?_⟩
  rw [hsignature]
  decide +kernel

/-- Although no constructor has two arguments of one binding name, parameters of two parts can have
the same name, and a binding can take the name of a parameter. -/
theorem parameters_clash_and_binding_captures :
    (∃ g routine, build {} [] clashing = .ok g ∧
      (∀ i ∈ clashing, i.constructor.BindsDistinct) ∧ "App" ∈ g.typeNames ∧
      g.resolveRoutine? "App" = some routine ∧
      routine.signature.arguments.map Argument.bindingName = ["id", "id"]) ∧
    (∃ g routine, build {} [] capturing = .ok g ∧
      (∀ i ∈ capturing, i.constructor.BindsDistinct) ∧ "App" ∈ g.typeNames ∧
      g.resolveRoutine? "App" = some routine ∧
      routine.signature.arguments.map Argument.bindingName = ["store"] ∧
      routine.body.boundNames = ["store"]) := by
  constructor
  · have hnames : ((ofRecipes {} (Recipe.all {} [] clashing)).resolveRoutine? "App").map
        (fun routine => routine.signature.arguments.map Argument.bindingName) =
        some ["id", "id"] := by
      decide +kernel
    obtain ⟨routine, hroutine, hnames⟩ := Option.map_eq_some_iff.1 hnames
    exact ⟨_, routine, by decide +kernel, by decide, by decide +kernel, hroutine, hnames⟩
  · have hnames : ((ofRecipes {} (Recipe.all {} [] capturing)).resolveRoutine? "App").map
        (fun routine => (routine.signature.arguments.map Argument.bindingName,
          routine.body.boundNames)) =
        some (["store"], ["store"]) := by
      decide +kernel
    obtain ⟨routine, hroutine, hnames⟩ := Option.map_eq_some_iff.1 hnames
    obtain ⟨hparameters, hbound⟩ := Prod.mk.inj hnames
    exact ⟨_, routine, by decide +kernel, by decide, by decide +kernel, hroutine, hparameters,
      hbound⟩

end Graph

end Wiring
