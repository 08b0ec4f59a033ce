import Mathlib.Algebra.GroupWithZero.Nat
import Mathlib.Data.List.FinRange
import Mathlib.Data.List.Nodup
import Wiring.Peeling
import Wiring.Proofs.Peeling.Turns

/-!
# Entries stand for what is left

Peeling keeps for every element the elements that wait for it. Elements are told apart by their
position, since two of them may be the same. At every turn an element is waited for by exactly the
elements left that need it, as often as they do (`Standing`), so that the first entry that nothing
waits for is the first element that no element left needs. Peeling therefore takes the elements off
in turn, and it fails where that is not possible (`peel_eq_some_iff`).
-/

namespace Wiring.Peeling

open Traversal

variable {α ι : Type*} {same : α → α → Bool} {demand : ι → Demand α}
variable {all left before after : List ι} {waiting : ι → List α} {i j : ι} {a x : α}

/-! ### Needs between positions -/

/-- What is found among all positions is found among those left, if it is left. -/
lemma find?_eq_of_sublist {p : ι → Bool} (hsub : left.Sublist all) (hnodup : all.Nodup)
    (hleft : ∀ j, all.find? p = some j → j ∈ left) : left.find? p = all.find? p := by
  induction hsub with
  | slnil => rfl
  | @cons left all i hsub ih =>
    obtain ⟨hi, hnodup⟩ := List.nodup_cons.1 hnodup
    cases hp : p i with
    | true => exact absurd (hsub.subset (hleft i (List.find?_cons_of_pos hp))) hi
    | false =>
      rw [List.find?_cons_of_neg (by simp [hp])] at hleft ⊢
      exact ih hnodup hleft
  | @cons_cons left all i hsub ih =>
    obtain ⟨hi, hnodup⟩ := List.nodup_cons.1 hnodup
    cases hp : p i with
    | true => rw [List.find?_cons_of_pos hp, List.find?_cons_of_pos hp]
    | false =>
      rw [List.find?_cons_of_neg (by simp [hp])] at hleft
      rw [List.find?_cons_of_neg (by simp [hp]), List.find?_cons_of_neg (by simp [hp])]
      apply ih hnodup
      intro j hj
      refine (List.mem_cons.1 (hleft j hj)).resolve_left ?_
      rintro rfl
      exact hi (List.mem_of_find?_eq_some hj)

/-- The position that a need stands for: the first one whose element it is the same as. -/
def position? (same : α → α → Bool) (demand : ι → Demand α) (all : List ι) (need : α) : Option ι :=
  all.find? fun i => same (demand i).element need

lemma same_of_position? {need : α} (h : position? same demand all need = some j) :
    same (demand j).element need = true :=
  List.find?_some (p := fun i => same (demand i).element need) h

lemma mem_of_position? {need : α} (h : position? same demand all need = some j) : j ∈ all :=
  List.mem_of_find?_eq_some h

/-- The one position needs the other. -/
def Needs (same : α → α → Bool) (demand : ι → Demand α) (all : List ι) (i j : ι) : Prop :=
  ∃ need ∈ (demand i).needs, position? same demand all need = some j

variable [DecidableEq ι]

/-- How many of the needs stand for the position. -/
def times (same : α → α → Bool) (demand : ι → Demand α) (all : List ι) (needs : List α) (j : ι) :
    ℕ :=
  needs.countP fun need => position? same demand all need = some j

/-- How often positions whose element is the same as `x` need the position `j`. -/
def asked (same : α → α → Bool) (demand : ι → Demand α) (all left : List ι) (x : α) (j : ι) : ℕ :=
  (left.map fun i =>
    if same (demand i).element x then times same demand all (demand i).needs j else 0).sum

lemma times_pos_iff : 0 < times same demand all (demand i).needs j ↔ Needs same demand all i j := by
  simp [times, Needs, List.countP_pos_iff]

/-! ### Entries of positions -/

/-- The entry of a position, given what waits for it. -/
def entry (demand : ι → Demand α) (waiting : ι → List α) (i : ι) : Entry α :=
  ⟨(demand i).element, (demand i).needs, waiting i⟩

/-- Changing the first entry that a need fits changes what waits for the position that the need
stands for. -/
lemma updateFirst_map_entry {need : α} (g : List α → List α) (hnodup : left.Nodup) :
    updateFirst (fun e => same e.element need) (fun e => { e with waiting := g e.waiting })
        (left.map (entry demand waiting)) =
      left.map (entry demand fun j =>
        if position? same demand left need = some j then g (waiting j) else waiting j) := by
  induction left with
  | nil => rfl
  | cons i left ih =>
    obtain ⟨hi, hnodup⟩ := List.nodup_cons.1 hnodup
    have hother : ∀ k ∈ left, i ≠ k := fun k hk heq => hi (heq ▸ hk)
    simp only [List.map_cons, updateFirst]
    cases hp : same (demand i).element need with
    | true =>
      have hfound : position? same demand (i :: left) need = some i :=
        List.find?_cons_of_pos hp
      rw [if_pos (by exact hp), hfound]
      refine congrArg₂ List.cons (by simp [entry]) (List.map_congr_left ?_)
      intro k hk
      simp [entry, hother k hk]
    | false =>
      have hfound : position? same demand (i :: left) need = position? same demand left need :=
        List.find?_cons_of_neg (by simp [hp])
      have hnone : position? same demand left need ≠ some i :=
        fun h => hi (mem_of_position? h)
      rw [if_neg (by simp [entry, hp]), hfound, ih hnodup]
      simp [entry, hnone]

/-- One change for every need changes what waits for a position as often as needs stand for it. -/
lemma foldl_updateFirst (g : List α → List α) (needs : List α) (hnodup : left.Nodup)
    (hagree : ∀ need ∈ needs, position? same demand left need = position? same demand all need) :
    needs.foldl (fun es need => updateFirst (fun e => same e.element need)
        (fun e => { e with waiting := g e.waiting }) es) (left.map (entry demand waiting)) =
      left.map (entry demand fun j => g^[times same demand all needs j] (waiting j)) := by
  induction needs generalizing waiting with
  | nil => rfl
  | cons need needs ih =>
    obtain ⟨hneed, hagree⟩ := List.forall_mem_cons.1 hagree
    rw [List.foldl_cons, updateFirst_map_entry g hnodup, ih hagree, hneed]
    refine List.map_congr_left fun j _ => ?_
    simp only [entry, times, List.countP_cons]
    by_cases hj : position? same demand all need = some j
    · simp [hj]
    · simp [hj]

/-! ### What waits for a position -/

lemma asked_middle {k : ι} : asked same demand all (before ++ j :: after) x k =
    (if same (demand j).element x then times same demand all (demand j).needs k else 0) +
      asked same demand all (before ++ after) x k := by
  simp only [asked, List.map_append, List.map_cons, List.sum_append, List.sum_cons]
  omega

lemma countP_iterate_append (k : ℕ) (l : List α) :
    ((· ++ [a])^[k] l).countP (same · x) =
      l.countP (same · x) + if same a x then k else 0 := by
  induction k generalizing l with
  | zero => simp
  | succ k ih =>
    rw [Function.iterate_succ_apply, ih, List.countP_append, List.countP_singleton]
    split <;> omega

lemma countP_iterate_eraseP (hsame : Equivalence fun a b => same a b = true) {k : ℕ} {l : List α}
    (hk : k ≤ l.countP (same · a)) :
    ((List.eraseP (same · a))^[k] l).countP (same · x) + (if same a x then k else 0) =
      l.countP (same · x) := by
  induction k generalizing l with
  | zero => simp
  | succ k ih =>
    have hpos : 0 < l.countP (same · a) := by omega
    obtain ⟨b, hb, hba⟩ := List.countP_pos_iff.1 hpos
    obtain ⟨c, l₁, l₂, _, hca, rfl, herase⟩ := List.exists_of_eraseP (p := (same · a)) hb hba
    -- the element that goes counts just as the one that it is the same as
    have hcx : same c x = same a x := by
      rw [Bool.eq_iff_iff]
      exact ⟨hsame.trans (hsame.symm hca), hsame.trans hca⟩
    have hk' : k ≤ (l₁ ++ l₂).countP (same · a) := by
      simp only [List.countP_append, List.countP_cons, hca, ite_true] at hk ⊢
      omega
    have hrest := ih hk'
    rw [Function.iterate_succ_apply, herase]
    simp only [List.countP_append, List.countP_cons, hcx] at hrest ⊢
    cases hax : same a x with
    | true =>
      simp only [hax, ite_true] at hrest ⊢
      omega
    | false =>
      simp only [hax, Bool.false_eq_true, ite_false] at hrest ⊢
      omega

/-- The entries of the positions that are left agree with the needs among them. -/
structure Standing (same : α → α → Bool) (demand : ι → Demand α) (all left : List ι)
    (waiting : ι → List α) : Prop where
  sublist : left.Sublist all
  /-- What is needed by a position that is left is left as well. -/
  closed : ∀ i ∈ left, ∀ j, Needs same demand all i j → j ∈ left
  /-- A position is waited for as often as positions left need it. -/
  count_eq : ∀ j ∈ left, ∀ x, (waiting j).countP (same · x) = asked same demand all left x j

namespace Standing

lemma waiting_eq_nil_iff (hsame : Equivalence fun a b => same a b = true)
    (h : Standing same demand all left waiting) (hj : j ∈ left) :
    waiting j = [] ↔ ∀ i ∈ left, ¬ Needs same demand all i j := by
  constructor
  · intro hnil i hi hneeds
    have hzero := h.count_eq j hj (demand i).element
    rw [hnil, List.countP_nil, asked, eq_comm, List.sum_eq_zero_iff_forall_eq_nat] at hzero
    have htimes := hzero _ (List.mem_map.2 ⟨i, hi, rfl⟩)
    rw [if_pos (hsame.refl _)] at htimes
    exact absurd (times_pos_iff.2 hneeds) (by omega)
  · intro hfree
    by_contra hne
    obtain ⟨y, hy⟩ := List.exists_mem_of_ne_nil _ hne
    have hpos : 0 < (waiting j).countP (same · y) := List.countP_pos_iff.2 ⟨y, hy, hsame.refl y⟩
    have hzero : asked same demand all left y j = 0 := by
      rw [asked, List.sum_eq_zero_iff_forall_eq_nat]
      intro k hk
      obtain ⟨i, hi, rfl⟩ := List.mem_map.1 hk
      have htimes := mt times_pos_iff.1 (hfree i hi)
      split <;> omega
    rw [h.count_eq j hj, hzero] at hpos
    omega

/-- Once an entry that nothing waits for is taken and settled, the others agree with the needs
among those left. -/
theorem settle (hsame : Equivalence fun a b => same a b = true) (hnodup : all.Nodup)
    (h : Standing same demand all (before ++ j :: after) waiting) (hfree : waiting j = []) :
    ∃ waiting', Peeling.settle same (entry demand waiting j)
        ((before ++ after).map (entry demand waiting)) =
        (before ++ after).map (entry demand waiting') ∧
      Standing same demand all (before ++ after) waiting' := by
  have hj : j ∈ before ++ j :: after := by simp
  have hsub : (before ++ after).Sublist all :=
    ((List.sublist_cons_self j after).append_left before).trans h.sublist
  have hnone := (h.waiting_eq_nil_iff hsame hj).1 hfree
  have hclosed : ∀ i ∈ before ++ j :: after, ∀ k, Needs same demand all i k →
      k ∈ before ++ after := by
    intro i hi k hneeds
    have hk := h.closed i hi k hneeds
    have hne : k ≠ j := fun heq => hnone i hi (heq ▸ hneeds)
    simpa [hne] using hk
  have hagree : ∀ need ∈ (demand j).needs,
      position? same demand (before ++ after) need = position? same demand all need := by
    intro need hneed
    exact find?_eq_of_sublist hsub hnodup fun k hk => hclosed j hj k ⟨need, hneed, hk⟩
  refine ⟨_, foldl_updateFirst _ _ (hsub.nodup hnodup) hagree, hsub, ?_, ?_⟩
  · intro i hi k hneeds
    exact hclosed i (((List.sublist_cons_self j after).append_left before).subset hi) k hneeds
  · intro k hk x
    have hk' := ((List.sublist_cons_self j after).append_left before).subset hk
    have hbound : times same demand all (demand j).needs k ≤
        (waiting k).countP (same · (demand j).element) := by
      rw [h.count_eq k hk', asked_middle, if_pos (hsame.refl _)]
      omega
    have hcount := countP_iterate_eraseP (x := x) hsame hbound
    rw [h.count_eq k hk' x, asked_middle] at hcount
    simp only [entry]
    omega

end Standing

/-! ### All entries -/

lemma exists_foldl_register (same : α → α → Bool) (demand : ι → Demand α) (hnodup : all.Nodup)
    (registered : List ι) (waiting : ι → List α) :
    ∃ waiting', (registered.map demand).foldl (register same) (all.map (entry demand waiting)) =
        all.map (entry demand waiting') ∧
      ∀ j x, (waiting' j).countP (same · x) =
        (waiting j).countP (same · x) + asked same demand all registered x j := by
  induction registered generalizing waiting with
  | nil => exact ⟨waiting, rfl, by simp [asked]⟩
  | cons i registered ih =>
    rw [List.map_cons, List.foldl_cons, register,
      foldl_updateFirst (· ++ [(demand i).element]) _ hnodup fun _ _ => rfl]
    obtain ⟨waiting', hentries, hcount⟩ := ih fun j =>
      (· ++ [(demand i).element])^[times same demand all (demand i).needs j] (waiting j)
    refine ⟨waiting', hentries, ?_⟩
    intro j x
    rw [hcount, countP_iterate_append]
    simp only [asked, List.map_cons, List.sum_cons]
    omega

/-- At the start all positions are left. -/
lemma exists_standing (same : α → α → Bool) (demand : ι → Demand α) (hnodup : all.Nodup) :
    ∃ waiting, entries same (all.map demand) = all.map (entry demand waiting) ∧
      Standing same demand all all waiting := by
  obtain ⟨waiting, hentries, hcount⟩ :=
    exists_foldl_register same demand hnodup all fun _ => []
  refine ⟨waiting, ?_, List.Sublist.refl all, ?_, ?_⟩
  · rw [← hentries, entries, List.map_map]
    rfl
  · rintro i _ j ⟨need, _, hj⟩
    exact mem_of_position? hj
  · intro j _ x
    simpa using hcount j x

/-! ### Peeling -/

lemma takeFree?_append {earlier later : List (Entry α)} {e : Entry α} (hfree : e.waiting = [])
    (hearlier : ∀ e ∈ earlier, e.waiting ≠ []) :
    takeFree? (earlier ++ e :: later) = some (e, earlier ++ later) := by
  induction earlier with
  | nil => simp [takeFree?, hfree]
  | cons e' earlier ih =>
    obtain ⟨he', hearlier⟩ := List.forall_mem_cons.1 hearlier
    simp [takeFree?, he', ih hearlier]

lemma takeFree?_eq_none_iff {es : List (Entry α)} :
    takeFree? es = none ↔ ∀ e ∈ es, e.waiting ≠ [] := by
  induction es with
  | nil => simp [takeFree?]
  | cons e es ih => by_cases he : e.waiting = [] <;> simp [takeFree?, he, ih]

lemma order_of_takeFree? {es others : List (Entry α)} {e : Entry α}
    (h : takeFree? es = some (e, others)) :
    order same es = (order same (settle same e others)).map (e.element :: ·) := by
  rw [order]
  split
  · next h' =>
    rw [h] at h'
    cases h'
    rfl
  · next h' =>
    rw [h] at h'
    cases h'

lemma order_of_takeFree?_eq_none {es : List (Entry α)} (h : takeFree? es = none) (hne : es ≠ []) :
    order same es = none := by
  rw [order]
  split
  · next h' =>
    rw [h] at h'
    cases h'
  · simp [hne]

/-- Entries that agree with the needs are ordered as their positions are taken off in turn. -/
theorem order_of_takenOff (hsame : Equivalence fun a b => same a b = true) (hnodup : all.Nodup)
    {taken : List ι} (h : TakenOff (Needs same demand all) left taken)
    (hstanding : Standing same demand all left waiting) :
    order same (left.map (entry demand waiting)) =
      some (taken.map fun i => (demand i).element) := by
  induction h generalizing waiting with
  | nil =>
    rw [List.map_nil, order]
    rfl
  | @cons before after rest j hfree hfirst _ ih =>
    have hj : waiting j = [] := (hstanding.waiting_eq_nil_iff hsame (by simp)).2 hfree
    have hbefore : ∀ e ∈ before.map (entry demand waiting), e.waiting ≠ [] := by
      intro e he hnil
      obtain ⟨k, hk, rfl⟩ := List.mem_map.1 he
      obtain ⟨i, hi, hneeds⟩ := hfirst k hk
      exact (hstanding.waiting_eq_nil_iff hsame (by simp [hk])).1 hnil i hi hneeds
    obtain ⟨waiting', hsettle, hstanding'⟩ := hstanding.settle hsame hnodup hj
    have htake : takeFree? ((before ++ j :: after).map (entry demand waiting)) =
        some (entry demand waiting j, (before ++ after).map (entry demand waiting)) := by
      rw [List.map_append, List.map_cons, List.map_append]
      exact takeFree?_append hj hbefore
    rw [order_of_takeFree? htake, hsettle, ih hstanding', List.map_cons]
    rfl

/-- Entries that have been ordered have been taken off in turn. -/
lemma exists_takenOff_of_order (hsame : Equivalence fun a b => same a b = true)
    (hnodup : all.Nodup) {result : List α} (hstanding : Standing same demand all left waiting)
    (horder : order same (left.map (entry demand waiting)) = some result) :
    ∃ taken, TakenOff (Needs same demand all) left taken := by
  induction hlength : left.length generalizing left waiting result with
  | zero =>
    obtain rfl := List.eq_nil_of_length_eq_zero hlength
    exact ⟨[], .nil⟩
  | succ length ih =>
    by_cases hfree : ∃ j ∈ left, waiting j = []
    · obtain ⟨j, before, after, rfl, hj, hbefore⟩ := exists_firstWith hfree
      obtain ⟨waiting', hsettle, hstanding'⟩ := hstanding.settle hsame hnodup hj
      have htake : takeFree? ((before ++ j :: after).map (entry demand waiting)) =
          some (entry demand waiting j, (before ++ after).map (entry demand waiting)) := by
        rw [List.map_append, List.map_cons, List.map_append]
        exact takeFree?_append hj (by simpa [entry] using hbefore)
      rw [order_of_takeFree? htake, hsettle, Option.map_eq_some_iff] at horder
      obtain ⟨result', hresult', _⟩ := horder
      obtain ⟨rest, hrest⟩ := ih hstanding' hresult' (by simp at hlength ⊢; omega)
      refine ⟨j :: rest, .cons ?_ ?_ hrest⟩
      · exact (hstanding.waiting_eq_nil_iff hsame (by simp)).1 hj
      · intro k hk
        by_contra hnone
        push Not at hnone
        exact hbefore k hk ((hstanding.waiting_eq_nil_iff hsame (by simp [hk])).2 hnone)
    · -- where everything is waited for, nothing can be taken
      have hnone : takeFree? (left.map (entry demand waiting)) = none := by
        rw [takeFree?_eq_none_iff]
        simpa [entry] using hfree
      have hne : left ≠ [] := List.ne_nil_of_length_eq_add_one hlength
      rw [order_of_takeFree?_eq_none hnone (by simpa using hne)] at horder
      cases horder

/-- Peeling succeeds just if the demanded elements can be taken off in turn, and gives them in that
order. -/
theorem peel_eq_some_iff (demand : ι → Demand α) (hsame : Equivalence fun a b => same a b = true)
    (hnodup : all.Nodup) (result : List α) : peel same (all.map demand) = some result ↔
      ∃ taken, TakenOff (Needs same demand all) all taken ∧
        result = taken.map fun i => (demand i).element := by
  obtain ⟨waiting, hentries, hstanding⟩ := exists_standing same demand hnodup
  rw [peel, hentries]
  constructor
  · intro horder
    obtain ⟨taken, htaken⟩ := exists_takenOff_of_order hsame hnodup hstanding horder
    rw [order_of_takenOff hsame hnodup htaken hstanding, Option.some.injEq] at horder
    exact ⟨taken, htaken, horder.symm⟩
  · rintro ⟨taken, htaken, rfl⟩
    exact order_of_takenOff hsame hnodup htaken hstanding

end Wiring.Peeling
