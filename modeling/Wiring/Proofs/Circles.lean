import Wiring.Links
import Wiring.Proofs.Walks

/-!
# Circles among links

Links form a circle if one or more of them lead from a name back to it. The first closing link
that `Link.firstClosing` finds is the last one of the shortest prefix with a circle, and it finds
none exactly when there is no circle (`firstClosing_eq_some_iff`, `firstClosing_eq_none_iff`).

Links without a circle can be followed only so far: every step leaves fewer names within reach
(`length_reachable_lt`), which is the measure for inductions along links.
-/

namespace Wiring.Link

open Relation

variable {links earlier later : List Link} {link : Link} {a b : String}

/-! ### Reachable names -/

/-- One of the links leads from the one name to the other. -/
def Step (links : List Link) (a b : String) : Prop :=
  ⟨a, b⟩ ∈ links

lemma Step.mono (h : earlier ⊆ later) : Step earlier ≤ Step later :=
  fun _ _ hab => h hab

theorem mem_reachable_iff : b ∈ reachable links a ↔ TransGen (Step links) a b := by
  have hclosed : ∀ c, ∀ d ∈ successors links c, d ∈ links.map Link.target :=
    fun _ _ hd => List.mem_map.2 ⟨_, mem_successors.1 hd, rfl⟩
  have hstep : (fun c d => d ∈ successors links c) = Step links := by
    funext c d
    exact propext mem_successors
  rw [reachable, Walk.mem_walk_iff, Walk.reached_iff_of_closed (hclosed a) hclosed, hstep,
    TransGen.head'_iff]
  simp only [mem_successors, Step]

lemma nodup_reachable (links : List Link) (a : String) : (reachable links a).Nodup :=
  (Walk.pairwise_walk _ _ _).imp fun h => by simpa using h

/-! ### Circles -/

/-- One or more of the links lead from some name back to it. -/
def Cyclic (links : List Link) : Prop :=
  ∃ name, TransGen (Step links) name name

lemma not_cyclic_nil : ¬ Cyclic [] := by
  rintro ⟨name, h⟩
  obtain ⟨other, hstep, _⟩ := TransGen.head'_iff.1 h
  simp [Step] at hstep

lemma Cyclic.mono (h : earlier ⊆ later) : Cyclic earlier → Cyclic later := by
  rintro ⟨name, hname⟩
  exact ⟨name, TransGen.mono (Step.mono h) _ _ hname⟩

/-- A chain that may use one more link either does without it, or runs up to the source of that
link before its first use and on from the target behind its last use. -/
lemma transGen_append_singleton (h : TransGen (Step (earlier ++ [link])) a b) :
    TransGen (Step earlier) a b ∨
      ReflTransGen (Step earlier) a link.source ∧ ReflTransGen (Step earlier) link.target b := by
  have hstep : ∀ {c d}, Step (earlier ++ [link]) c d → Step earlier c d ∨ link = ⟨c, d⟩ := by
    intro c d h
    rcases List.mem_append.1 h with h | h
    · exact .inl h
    · exact .inr (List.mem_singleton.1 h).symm
  induction h with
  | single h =>
    rcases hstep h with h | rfl
    · exact .inl (.single h)
    · exact .inr ⟨.refl, .refl⟩
  | tail _ h ih =>
    rcases hstep h with h | rfl
    · exact ih.imp (·.tail h) fun ⟨hsource, htarget⟩ => ⟨hsource, htarget.tail h⟩
    · refine .inr ⟨?_, .refl⟩
      rcases ih with hab | ⟨hsource, _⟩
      · exact hab.to_reflTransGen
      · exact hsource

/-- A further link makes a circle just if its target leads back to its source. -/
theorem cyclic_append_singleton (h : ¬ Cyclic earlier) :
    Cyclic (earlier ++ [link]) ↔ ReflTransGen (Step earlier) link.target link.source := by
  constructor
  · rintro ⟨name, hname⟩
    rcases transGen_append_singleton hname with hname | ⟨hsource, htarget⟩
    · exact absurd ⟨name, hname⟩ h
    · exact htarget.trans hsource
  · intro hback
    have hlink : Step (earlier ++ [link]) link.source link.target := by simp [Step]
    have hmono : Step earlier ≤ Step (earlier ++ [link]) :=
      Step.mono (List.subset_append_left _ _)
    exact ⟨link.source, TransGen.head' hlink (ReflTransGen.mono hmono _ _ hback)⟩

lemma closes_iff : closes earlier link = true ↔
    ReflTransGen (Step earlier) link.target link.source := by
  rw [closes, Bool.or_eq_true, beq_iff_eq, List.contains_iff_mem, mem_reachable_iff,
    reflTransGen_iff_eq_or_transGen, eq_comm]

/-! ### The first closing link -/

/-- The link ends the shortest prefix of the links that has a circle. -/
def ClosesFirst (links : List Link) (link : Link) : Prop :=
  ∃ before, before ++ [link] <+: links ∧ Cyclic (before ++ [link]) ∧
    ∀ shorter, shorter <+: links → Cyclic shorter → before.length < shorter.length

/-- What the search finds behind links that have no circle yet. -/
lemma firstClosingAfter_spec (h : ¬ Cyclic earlier) :
    match firstClosingAfter earlier later with
    | none => ¬ Cyclic (earlier ++ later)
    | some link => ∃ before after, later = before ++ link :: after ∧
        ¬ Cyclic (earlier ++ before) ∧ Cyclic (earlier ++ before ++ [link]) := by
  induction later generalizing earlier with
  | nil => simpa [firstClosingAfter] using h
  | cons link later ih =>
    simp only [firstClosingAfter]
    by_cases hcloses : closes earlier link = true
    · rw [if_pos hcloses]
      refine ⟨[], later, rfl, by simpa using h, ?_⟩
      rw [List.append_nil]
      exact (cyclic_append_singleton h).2 (closes_iff.1 hcloses)
    · rw [if_neg hcloses]
      have hnext : ¬ Cyclic (earlier ++ [link]) := fun hc =>
        hcloses (closes_iff.2 ((cyclic_append_singleton h).1 hc))
      have hrest := ih hnext
      cases hfirst : firstClosingAfter (earlier ++ [link]) later with
      | none => simpa [hfirst] using hrest
      | some found =>
        rw [hfirst] at hrest
        obtain ⟨before, after, rfl, hbefore, hclosed⟩ := hrest
        exact ⟨link :: before, after, rfl, by simpa using hbefore, by simpa using hclosed⟩

theorem firstClosing_eq_none_iff : firstClosing links = none ↔ ¬ Cyclic links := by
  have hspec := @firstClosingAfter_spec [] links not_cyclic_nil
  rw [← firstClosing] at hspec
  cases hfirst : firstClosing links with
  | none => simpa [hfirst] using hspec
  | some link =>
    rw [hfirst] at hspec
    obtain ⟨before, after, rfl, _, hcyclic⟩ := hspec
    have : Cyclic (before ++ link :: after) := hcyclic.mono (by simp)
    simp [this]

/-- What is refused because of a closing link is accepted just if there is no circle. -/
lemma accepted_iff {ε β : Type*} {refuse : Link → ε} {x y : β} :
    (match firstClosing links with
      | some link => .error (refuse link)
      | none => .ok x : Except ε β) = .ok y ↔ x = y ∧ ¬ Cyclic links := by
  cases hfirst : firstClosing links with
  | none => simp [firstClosing_eq_none_iff.1 hfirst]
  | some link =>
    have hcyclic : Cyclic links := by
      by_contra hacyclic
      rw [firstClosing_eq_none_iff.2 hacyclic] at hfirst
      cases hfirst
    simp [hcyclic]

/-- Two splits of the links at a shortest prefix with a circle are the same. -/
lemma ClosesFirst.unique {other : Link} (h : ClosesFirst links link)
    (h' : ClosesFirst links other) : link = other := by
  obtain ⟨before, hbefore, hcyclic, hleast⟩ := h
  obtain ⟨before', hbefore', hcyclic', hleast'⟩ := h'
  have hle := hleast _ hbefore' hcyclic'
  have hle' := hleast' _ hbefore hcyclic
  rw [List.length_append, List.length_singleton] at hle hle'
  have heq := (List.prefix_of_prefix_length_le hbefore hbefore' (by simp; omega)).eq_of_length
    (by simp; omega)
  exact (List.append_inj' heq rfl).2 |> List.singleton_inj.1

lemma ClosesFirst.of_firstClosing (h : firstClosing links = some link) :
    ClosesFirst links link := by
  have hspec := @firstClosingAfter_spec [] links not_cyclic_nil
  rw [← firstClosing, h] at hspec
  obtain ⟨before, after, rfl, hbefore, hcyclic⟩ := hspec
  refine ⟨before, ⟨after, by simp⟩, by simpa using hcyclic, ?_⟩
  intro shorter hprefix hshorter
  -- a circle within `shorter` would be one within `before`
  by_contra hlength
  have hwithin : shorter <+: before :=
    List.prefix_of_prefix_length_le hprefix (List.prefix_append _ _) (by omega)
  exact hbefore (by simpa using hshorter.mono hwithin.subset)

theorem firstClosing_eq_some_iff : firstClosing links = some link ↔ ClosesFirst links link := by
  constructor
  · exact ClosesFirst.of_firstClosing
  · intro h
    cases hfirst : firstClosing links with
    | none =>
      obtain ⟨before, hbefore, hcyclic, _⟩ := h
      exact absurd (hcyclic.mono hbefore.subset) (firstClosing_eq_none_iff.1 hfirst)
    | some other => rw [(ClosesFirst.of_firstClosing hfirst).unique h]

/-- What is refused because of a closing link is refused because of the first one. -/
lemma refused_iff {ε β : Type*} {refuse : Link → ε} {x : β} {e : ε} :
    (match firstClosing links with
      | some link => .error (refuse link)
      | none => .ok x : Except ε β) = .error e ↔
      ∃ link, ClosesFirst links link ∧ refuse link = e := by
  simp only [← firstClosing_eq_some_iff]
  cases firstClosing links <;> simp

/-- The target of the closing link leads back to its source through the links before it. -/
lemma ClosesFirst.returns (h : ClosesFirst links link) :
    link ∈ links ∧ ReflTransGen (Step links) link.target link.source := by
  obtain ⟨before, hbefore, hcyclic, hleast⟩ := h
  have hacyclic : ¬ Cyclic before := fun hc =>
    absurd (hleast before ((List.prefix_append _ _).trans hbefore) hc) (Nat.lt_irrefl _)
  have hback := (cyclic_append_singleton hacyclic).1 hcyclic
  have hsubset : before ⊆ links := ((List.prefix_append _ _).trans hbefore).subset
  exact ⟨hbefore.subset (by simp), ReflTransGen.mono (Step.mono hsubset) _ _ hback⟩

/-! ### Following links without a circle -/

lemma not_mem_reachable_self (h : ¬ Cyclic links) : a ∉ reachable links a :=
  fun ha => h ⟨a, mem_reachable_iff.1 ha⟩

/-- Every step leaves fewer names within reach. -/
theorem length_reachable_lt (h : ¬ Cyclic links) (hstep : TransGen (Step links) a b) :
    (reachable links b).length < (reachable links a).length := by
  have hnodup : (b :: reachable links b).Nodup :=
    List.nodup_cons.2 ⟨not_mem_reachable_self h, nodup_reachable links b⟩
  have hsubset : b :: reachable links b ⊆ reachable links a := by
    intro c hc
    rw [mem_reachable_iff]
    rcases List.mem_cons.1 hc with rfl | hc
    · exact hstep
    · exact hstep.trans (mem_reachable_iff.1 hc)
  have hle := hnodup.length_le_of_subset hsubset
  rwa [List.length_cons] at hle

/-- Among given names, fewer are within reach of one of them than there are. -/
lemma length_reachable_lt_length {names : List String} (h : ¬ Cyclic links) (ha : a ∈ names)
    (htargets : ∀ link ∈ links, link.target ∈ names) :
    (reachable links a).length < names.length := by
  have hnodup : (a :: reachable links a).Nodup :=
    List.nodup_cons.2 ⟨not_mem_reachable_self h, nodup_reachable links a⟩
  have hsubset : a :: reachable links a ⊆ names := by
    intro c hc
    rcases List.mem_cons.1 hc with rfl | hc
    · exact ha
    · obtain ⟨d, _, hstep⟩ := TransGen.tail'_iff.1 (mem_reachable_iff.1 hc)
      exact htargets _ hstep
  have hle := hnodup.length_le_of_subset hsubset
  rwa [List.length_cons] at hle

end Wiring.Link
