import Wiring.Proofs.Walks

/-!
# Walks and expansions

The expansion of some pending elements lists each of them followed by the whole expansion of what it
leads to, without leaving anything out. A walk leaves out elements that it has listed before, and
with them everything that they lead to. Where no element leads back to itself it loses nothing by
that: the walk is the expansion with only the first of the same elements kept
(`walk_eq_eraseDups`).
-/

namespace Wiring.Walk

open Sameness

variable {α : Type*} {next : α → List α} {pending below l l' : List α} {x y : α}

/-! ### Expansions -/

/-- The pending elements, each followed by the expansion of what it leads to. -/
inductive Expands (next : α → List α) : List α → List α → Prop
  | nil : Expands next [] []
  | cons {x : α} {rest below behind : List α} (hbelow : Expands next (next x) below)
      (hrest : Expands next rest behind) : Expands next (x :: rest) (x :: (below ++ behind))

namespace Expands

lemma unique (h : Expands next pending l) (h' : Expands next pending l') : l = l' := by
  induction h generalizing l' with
  | nil =>
    cases h'
    rfl
  | cons _ _ ihbelow ihrest =>
    cases h' with
    | cons hbelow hrest => rw [ihbelow hbelow, ihrest hrest]

lemma append {pending' : List α} (h : Expands next pending l) (h' : Expands next pending' l') :
    Expands next (pending ++ pending') (l ++ l') := by
  induction h with
  | nil => exact h'
  | cons hbelow _ _ ih =>
    rw [List.cons_append, List.cons_append, List.append_assoc]
    exact .cons hbelow ih

lemma pending_subset (h : Expands next pending l) : pending ⊆ l := by
  induction h with
  | nil => exact List.Subset.refl _
  | cons _ _ _ ih =>
    exact List.cons_subset_cons _ (List.Subset.trans ih (List.subset_append_right _ _))

/-- An expansion holds the expansion of what any of its members leads to. -/
lemma exists_below (h : Expands next pending l) (hx : x ∈ l) :
    ∃ below, Expands next (next x) below ∧ below ⊆ l := by
  induction h with
  | nil => cases hx
  | @cons y rest below behind hbelow hrest ihbelow ihrest =>
    have hleft : below ⊆ y :: (below ++ behind) := by simp
    have hright : behind ⊆ y :: (below ++ behind) := by simp
    rcases List.mem_cons.1 hx with rfl | hx
    · exact ⟨below, hbelow, hleft⟩
    rcases List.mem_append.1 hx with hx | hx
    · obtain ⟨below', hbelow', hsubset⟩ := ihbelow hx
      exact ⟨below', hbelow', List.Subset.trans hsubset hleft⟩
    · obtain ⟨below', hbelow', hsubset⟩ := ihrest hx
      exact ⟨below', hbelow', List.Subset.trans hsubset hright⟩

lemma next_subset (h : Expands next pending l) (hx : x ∈ l) : next x ⊆ l := by
  obtain ⟨below, hbelow, hsubset⟩ := h.exists_below hx
  exact List.Subset.trans hbelow.pending_subset hsubset

/-- What holds of the pending elements and of whatever an element with it leads to holds of the
whole expansion. -/
lemma forall_mem {P : α → Prop} (h : Expands next pending l) (hpending : ∀ x ∈ pending, P x)
    (hnext : ∀ x, P x → ∀ y ∈ next x, P y) : ∀ x ∈ l, P x := by
  induction h with
  | nil => simp
  | cons _ _ ihbelow ihrest =>
    obtain ⟨hx, hpending⟩ := List.forall_mem_cons.1 hpending
    exact List.forall_mem_cons.2 ⟨hx, List.forall_mem_append.2
      ⟨ihbelow (hnext _ hx), ihrest hpending⟩⟩

end Expands

lemma exists_expands_of_each (h : ∀ x ∈ pending, ∃ below, Expands next (next x) below) :
    ∃ l, Expands next pending l := by
  induction pending with
  | nil => exact ⟨[], .nil⟩
  | cons x rest ih =>
    obtain ⟨⟨below, hbelow⟩, hrest⟩ := List.forall_mem_cons.1 h
    obtain ⟨behind, hbehind⟩ := ih hrest
    exact ⟨_, .cons hbelow hbehind⟩

/-! ### Elements that do not lead back to themselves -/

section Ranked

variable {rank : α → ℕ} (hrank : ∀ x, ∀ y ∈ next x, rank y < rank x)
include hrank

lemma exists_expands (pending : List α) : ∃ l, Expands next pending l := by
  have hbelow : ∀ x, ∃ below, Expands next (next x) below := by
    intro x
    induction hx : rank x using Nat.strongRecOn generalizing x with
    | _ _ ih => exact exists_expands_of_each fun y hy => ih _ (hx ▸ hrank x y hy) y rfl
  exact exists_expands_of_each fun x _ => hbelow x

lemma rank_lt_of_mem_below (hbelow : Expands next (next x) below) (hy : y ∈ below) :
    rank y < rank x := by
  refine hbelow.forall_mem (P := fun y => rank y < rank x) (hrank x) ?_ y hy
  exact fun y hyx z hz => Nat.lt_trans (hrank y z hz) hyx

lemma not_contains_below [BEq α] (hnext : ∀ x y, (x == y) = true → next x = next y)
    (hbelow : Expands next (next x) below) : below.contains x = false := by
  rw [← Bool.not_eq_true, List.contains_iff_exists_mem_beq]
  rintro ⟨y, hy, hxy⟩
  -- `y` leads to the same elements as `x`, so it would have to be below itself
  rw [hnext x y hxy] at hbelow
  exact Nat.lt_irrefl _ (rank_lt_of_mem_below hrank hbelow hy)

end Ranked

/-! ### What is stale -/

variable [BEq α] {fresh behind : List α}

/-- Whatever a stale member of the expansion leads to is stale or stands in front of it. -/
def Settled (next : α → List α) (fresh l : List α) : Prop :=
  ∀ front z behind, l = front ++ z :: behind → fresh.contains z = false →
    ∀ below, Expands next (next z) below →
      ∀ y ∈ below, fresh.contains y = false ∨ front.contains y = true

/-- In front there is nothing, so what a stale first element leads to is stale. -/
lemma Settled.below_stale (h : Settled next fresh (x :: (below ++ behind)))
    (hstale : fresh.contains x = false) (hbelow : Expands next (next x) below) :
    ∀ y ∈ below, fresh.contains y = false := by
  intro y hy
  simpa using h [] x (below ++ behind) rfl hstale below hbelow y hy

variable [EquivBEq α]

lemma contains_eq_false_of_beq (hxy : (x == y) = true) (hx : fresh.contains x = false) :
    fresh.contains y = false := by
  rw [← Bool.not_eq_true] at hx ⊢
  exact fun hy => hx ((contains_congr hxy).2 hy)

lemma contains_without_eq_false_iff : (without x fresh).contains y = false ↔
    fresh.contains y = false ∨ (x == y) = true := by
  rw [← Bool.not_eq_true, contains_without, not_and_or, Bool.not_eq_true, Bool.not_eq_false]

/-- A stale first element may be left out with all that it leads to. -/
lemma Settled.skip (h : Settled next fresh (x :: (below ++ behind)))
    (hstale : fresh.contains x = false) (hbelow : Expands next (next x) below) :
    Settled next fresh behind := by
  rintro front z later rfl hz below' hbelow' y hy
  have hsplit : x :: (below ++ (front ++ z :: later)) = (x :: (below ++ front)) ++ z :: later := by
    simp
  rcases h _ z later hsplit hz below' hbelow' y hy with hy | hy
  · exact .inl hy
  · rw [List.contains_cons, List.contains_append, Bool.or_eq_true, Bool.or_eq_true] at hy
    rcases hy with hyx | hy | hy
    · exact .inl (contains_eq_false_of_beq (BEq.symm hyx) hstale)
    · obtain ⟨b, hb, hyb⟩ := List.contains_iff_exists_mem_beq.1 hy
      exact .inl (contains_eq_false_of_beq (BEq.symm hyb) (h.below_stale hstale hbelow b hb))
    · exact .inr hy

/-- What the first element leads to stands in front of all other elements that are the same. -/
lemma Settled.turn (hnext : ∀ x y, (x == y) = true → next x = next y)
    (h : Settled next fresh (x :: (below ++ behind))) (hbelow : Expands next (next x) below)
    (hself : below.contains x = false) : Settled next (without x fresh) (below ++ behind) := by
  intro front z later hsplit hz below' hbelow' y hy
  rw [contains_without_eq_false_iff] at hz ⊢
  rcases hz with hz | hxz
  · rcases h (x :: front) z later (by rw [hsplit]; rfl) hz below' hbelow' y hy with hy | hy
    · exact .inl (.inl hy)
    · rw [List.contains_cons, Bool.or_eq_true] at hy
      exact hy.imp (fun hyx => .inr (BEq.symm hyx)) id
  · rw [← hnext x z hxz] at hbelow'
    obtain rfl := hbelow.unique hbelow'
    have hz : z ∉ below := by
      intro hz
      rw [← Bool.not_eq_true, List.contains_iff_exists_mem_beq] at hself
      exact hself ⟨z, hz, hxz⟩
    refine .inr (contains_of_mem ?_)
    rcases List.append_eq_append_iff.1 hsplit with ⟨rest, rfl, _⟩ | ⟨rest, rfl, hrest⟩
    · exact List.mem_append_left _ hy
    · cases rest with
      | nil => simpa using hy
      | cons w rest =>
        obtain ⟨rfl, _⟩ := List.cons.inj hrest
        simp at hz

/-! ### Walks -/

theorem walk_eq_eraseDups_filter (hnext : ∀ x y, (x == y) = true → next x = next y)
    (hself : ∀ x below, Expands next (next x) below → below.contains x = false)
    (h : Expands next pending l) (hsettled : Settled next fresh l) :
    walk next fresh pending = (l.filter fresh.contains).eraseDups := by
  induction hlength : l.length using Nat.strongRecOn generalizing fresh pending l with
  | _ length ih =>
    cases h with
    | nil => simp
    | @cons x rest below behind hbelow hrest =>
      simp only [List.length_cons, List.length_append] at hlength
      cases hx : fresh.contains x with
      | false =>
        have hstale : below.filter fresh.contains = [] := by
          simpa using hsettled.below_stale hx hbelow
        rw [walk_cons_of_stale hx, List.filter_cons, hx, List.filter_append, hstale]
        exact ih _ (by omega) hrest (hsettled.skip hx hbelow) rfl
      | true =>
        have hturn := hsettled.turn hnext hbelow (hself x below hbelow)
        rw [walk_cons_of_fresh hx, ih _ (by simp; omega) (hbelow.append hrest) hturn rfl,
          List.filter_cons, if_pos hx, List.eraseDups_cons, List.filter_filter]
        congr 2
        apply List.filter_congr
        intro y _
        rw [Bool.eq_iff_iff, contains_without, BEq.comm]
        simp [and_comm]

/-- Where every element is fresh, a walk keeps the first of the same elements of the expansion. -/
theorem walk_eq_eraseDups {rank : α → ℕ} (hrank : ∀ x, ∀ y ∈ next x, rank y < rank x)
    (hnext : ∀ x y, (x == y) = true → next x = next y) (h : Expands next pending l)
    (hfresh : ∀ x ∈ l, fresh.contains x = true) : walk next fresh pending = l.eraseDups := by
  have hsettled : Settled next fresh l := by
    rintro front z behind rfl hz
    simp [hfresh z (by simp)] at hz
  rw [walk_eq_eraseDups_filter hnext (fun _ _ => not_contains_below hrank hnext) h hsettled,
    List.filter_eq_self.2 hfresh]

end Wiring.Walk
