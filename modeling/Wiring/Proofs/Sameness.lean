import Mathlib.Data.List.Induction
import Mathlib.Data.List.Nodup
import Mathlib.Data.List.Sort
import Mathlib.Tactic.Common
import Wiring.Graph.Basic

/-!
# Lists up to sameness

Elements that are the same (`==`) need not be equal, so membership in a list is asked with
`List.contains`. Erasing duplicates keeps the first of the same elements: nothing is lost
(`contains_eraseDups`) and no two elements that are left are the same (`pairwise_eraseDups`).
-/

namespace Wiring.Sameness

variable {α : Type*} [BEq α] {l l' k k' : List α} {x y : α}

lemma contains_congr [EquivBEq α] (h : (x == y) = true) :
    l.contains x = true ↔ l.contains y = true := by
  simp only [List.contains_iff_exists_mem_beq]
  exact ⟨fun ⟨z, hz, hxz⟩ => ⟨z, hz, BEq.trans (BEq.symm h) hxz⟩,
    fun ⟨z, hz, hyz⟩ => ⟨z, hz, BEq.trans h hyz⟩⟩

lemma contains_of_mem [ReflBEq α] (h : x ∈ l) : l.contains x = true :=
  List.contains_iff_exists_mem_beq.2 ⟨x, h, BEq.rfl⟩

/-! ### Erasing duplicates -/

theorem contains_eraseDups [EquivBEq α] (l : List α) :
    l.eraseDups.contains x = true ↔ l.contains x = true := by
  match l with
  | [] => simp
  | a :: as =>
    have ih := contains_eraseDups (as.filter fun b => !b == a)
    rw [List.eraseDups_cons, List.contains_cons, List.contains_cons, Bool.or_eq_true,
      Bool.or_eq_true, ih]
    by_cases hxa : (x == a) = true
    · simp [hxa]
    · refine or_congr Iff.rfl ?_
      simp only [List.contains_iff_exists_mem_beq, List.mem_filter]
      constructor
      · rintro ⟨b, ⟨hb, _⟩, hxb⟩
        exact ⟨b, hb, hxb⟩
      · rintro ⟨b, hb, hxb⟩
        refine ⟨b, ⟨hb, ?_⟩, hxb⟩
        cases hba : b == a with
        | false => rfl
        | true => exact absurd (BEq.trans hxb hba) hxa
termination_by l.length
decreasing_by exact Nat.lt_succ_of_le (List.length_filter_le _ _)

theorem mem_of_mem_eraseDups (l : List α) (h : x ∈ l.eraseDups) : x ∈ l := by
  match l with
  | [] => simp at h
  | a :: as =>
    rw [List.eraseDups_cons] at h
    rcases List.mem_cons.1 h with rfl | h
    · exact List.mem_cons_self
    · have hx := mem_of_mem_eraseDups (as.filter fun b => !b == a) h
      exact List.mem_cons_of_mem _ (List.mem_filter.1 hx).1
termination_by l.length
decreasing_by exact Nat.lt_succ_of_le (List.length_filter_le _ _)

theorem pairwise_eraseDups [EquivBEq α] (l : List α) :
    l.eraseDups.Pairwise fun x y => (x == y) = false := by
  match l with
  | [] => exact .nil
  | a :: as =>
    rw [List.eraseDups_cons]
    refine List.pairwise_cons.2 ⟨?_, pairwise_eraseDups _⟩
    intro b hb
    have hba := (List.mem_filter.1 (mem_of_mem_eraseDups _ hb)).2
    rw [BEq.comm]
    simpa using hba
termination_by l.length
decreasing_by exact Nat.lt_succ_of_le (List.length_filter_le _ _)

lemma contains_filter_not_beq [EquivBEq α] (hxy : (x == y) = false) :
    (l.filter fun z => !z == y).contains x = l.contains x := by
  rw [Bool.eq_iff_iff]
  simp only [List.contains_iff_exists_mem_beq, List.mem_filter]
  constructor
  · rintro ⟨z, ⟨hz, _⟩, hxz⟩
    exact ⟨z, hz, hxz⟩
  · rintro ⟨z, hz, hxz⟩
    refine ⟨z, ⟨hz, ?_⟩, hxz⟩
    rw [← BEq.congr_left hxz, hxy]
    rfl

/-- Of two lists, the second one keeps what is not in the first one. -/
theorem eraseDups_append [EquivBEq α] (l l' : List α) :
    (l ++ l').eraseDups = l.eraseDups ++ (l'.removeAll l).eraseDups := by
  match l with
  | [] => simp
  | a :: as =>
    have ih := eraseDups_append (as.filter fun b => !b == a) (l'.filter fun b => !b == a)
    have hrest : (l'.filter fun b => !b == a).removeAll (as.filter fun b => !b == a) =
        l'.removeAll (a :: as) := by
      rw [List.removeAll_cons, List.removeAll, List.removeAll]
      apply List.filter_congr
      intro b hb
      have hba : (b == a) = false := by simpa using (List.mem_filter.1 hb).2
      rw [List.elem_eq_contains, List.elem_eq_contains, contains_filter_not_beq hba]
    rw [List.cons_append, List.eraseDups_cons, List.eraseDups_cons, List.filter_append, ih, hrest,
      List.cons_append]
termination_by l.length
decreasing_by exact Nat.lt_succ_of_le (List.length_filter_le _ _)

/-- A choice that does not tell the same elements apart may be made before or after. -/
lemma eraseDups_filter [EquivBEq α] {p : α → Bool} (hp : ∀ x y, (x == y) = true → p x = p y)
    (l : List α) : (l.filter p).eraseDups = l.eraseDups.filter p := by
  match l with
  | [] => rfl
  | a :: as =>
    have ih := eraseDups_filter hp (as.filter fun b => !b == a)
    rw [List.eraseDups_cons, List.filter_cons, List.filter_cons, ← ih]
    cases hpa : p a with
    | true =>
      rw [if_pos rfl, if_pos rfl, List.eraseDups_cons, List.filter_filter, List.filter_filter]
      simp only [Bool.and_comm]
    | false =>
      rw [if_neg (by simp), if_neg (by simp), List.filter_filter]
      -- what is the same as `a` is not chosen anyway
      congr 1
      apply List.filter_congr
      intro b _
      cases hba : b == a with
      | true => simp [hp b a hba, hpa]
      | false => simp
termination_by l.length
decreasing_by exact Nat.lt_succ_of_le (List.length_filter_le _ _)

lemma eraseDups_eq_self (h : l.Pairwise fun x y => (x == y) = false) [EquivBEq α] :
    l.eraseDups = l := by
  induction l with
  | nil => rfl
  | cons a l ih =>
    obtain ⟨ha, h⟩ := List.pairwise_cons.1 h
    have hfilter : (l.filter fun b => !b == a) = l :=
      List.filter_eq_self.2 fun b hb => by rw [BEq.comm, ha b hb]; rfl
    rw [List.eraseDups_cons, hfilter, ih h]

@[simp] lemma eraseDups_eraseDups [EquivBEq α] (l : List α) : l.eraseDups.eraseDups = l.eraseDups :=
  eraseDups_eq_self (pairwise_eraseDups l)

lemma eraseDups_removeAll [EquivBEq α] (l l' : List α) :
    (l'.removeAll l).eraseDups = l'.eraseDups.filter fun x => !l.contains x := by
  rw [← eraseDups_filter]
  · rfl
  · intro x y hxy
    rw [Bool.eq_iff_iff, Bool.not_eq_true', Bool.not_eq_true', ← Bool.not_eq_true,
      ← Bool.not_eq_true, contains_congr hxy]

/-- Of two lists, only what is left without duplicates matters. -/
lemma eraseDups_append_congr [EquivBEq α] (h : l.eraseDups = k.eraseDups)
    (h' : l'.eraseDups = k'.eraseDups) : (l ++ l').eraseDups = (k ++ k').eraseDups := by
  have hcontains : ∀ x, l.contains x = k.contains x := fun x => by
    rw [Bool.eq_iff_iff, ← contains_eraseDups, h, contains_eraseDups]
  rw [eraseDups_append, eraseDups_append, eraseDups_removeAll, eraseDups_removeAll, h, h']
  simp only [hcontains]

lemma removeAll_flatMap_filter {β : Type*} {f : β → List α} {l : List β} {p : β → Bool}
    (hf : ∀ b ∈ l, p b = false → ∀ x ∈ f b, k.contains x = true) :
    ((l.filter p).flatMap f).removeAll k = (l.flatMap f).removeAll k := by
  induction l with
  | nil => rfl
  | cons b l ih =>
    obtain ⟨hb, hf⟩ := List.forall_mem_cons.1 hf
    have ih := ih hf
    simp only [List.removeAll, List.elem_eq_contains] at ih ⊢
    cases hp : p b with
    | true => rw [List.filter_cons, hp, if_pos rfl, List.flatMap_cons, List.flatMap_cons,
        List.filter_append, List.filter_append, ih]
    | false =>
      have hnone : (f b).filter (fun x => !k.contains x) = [] := by simpa using hb hp
      rw [List.filter_cons, hp, if_neg (by simp), List.flatMap_cons, List.filter_append, hnone,
        List.nil_append, ih]

/-- Duplicates may be erased before as well if the same elements contribute the same. -/
theorem eraseDups_flatMap_eraseDups {β : Type*} [BEq β] [EquivBEq β] [EquivBEq α]
    {f : β → List α} (hf : ∀ b c, (b == c) = true → ∀ x ∈ f b, (f c).contains x = true)
    (l : List β) : (l.eraseDups.flatMap f).eraseDups = (l.flatMap f).eraseDups := by
  match l with
  | [] => rfl
  | b :: bs =>
    have ih := eraseDups_flatMap_eraseDups hf (bs.filter fun c => !c == b)
    rw [List.eraseDups_cons, List.flatMap_cons, List.flatMap_cons, eraseDups_append_congr rfl ih,
      eraseDups_append, eraseDups_append, removeAll_flatMap_filter]
    intro c _ hcb
    exact hf c b (by simpa using hcb)
termination_by l.length
decreasing_by exact Nat.lt_succ_of_le (List.length_filter_le _ _)

/-- Where a function tells the same elements apart, duplicates may be erased behind it as well. -/
theorem map_eraseDups {β : Type*} [BEq β] {f : α → β} {l : List α}
    (hf : ∀ x ∈ l, ∀ y ∈ l, (x == y) = (f x == f y)) :
    l.eraseDups.map f = (l.map f).eraseDups := by
  match l with
  | [] => rfl
  | a :: as =>
    have hrest : ∀ x ∈ as.filter fun b => !b == a, x ∈ a :: as :=
      fun x hx => List.mem_cons_of_mem _ (List.mem_filter.1 hx).1
    have ih := map_eraseDups (l := as.filter fun b => !b == a)
      fun x hx y hy => hf x (hrest x hx) y (hrest y hy)
    rw [List.eraseDups_cons, List.map_cons, List.map_cons, List.eraseDups_cons, ih,
      List.filter_map]
    congr 3
    apply List.filter_congr
    intro b hb
    rw [hf b (List.mem_cons_of_mem _ hb) a List.mem_cons_self]
    rfl
termination_by l.length
decreasing_by exact Nat.lt_succ_of_le (List.length_filter_le _ _)

section Keys

variable {κ : Type*} [BEq κ] [LawfulBEq κ] {k : κ} {keys keys' : List κ}

/-- Looking up a key finds the one element that has it. -/
lemma find?_key_eq_some {α : Type*} {l : List α} {x : α} {f : α → κ} (hx : x ∈ l)
    (hunique : ∀ y ∈ l, f y = f x → y = x) : (l.find? fun y => f y == f x) = some x := by
  cases hfind : l.find? fun y => f y == f x with
  | none => simpa using List.find?_eq_none.1 hfind x hx
  | some y =>
    have hy : f y = f x := by simpa using List.find?_some hfind
    rw [hunique y (List.mem_of_find?_eq_some hfind) hy]

lemma find?_key_eq_none_iff {α : Type*} {l : List α} {f : α → κ} :
    (l.find? fun y => f y == k) = none ↔ k ∉ l.map f := by
  simp [List.find?_eq_none]

/-- Where keys differ, the order of the elements does not matter for looking up a key. -/
lemma find?_key_perm {α : Type*} {l l' : List α} {f : α → κ} (hperm : l.Perm l')
    (hnodup : (l.map f).Nodup) (k : κ) :
    (l.find? fun y => f y == k) = l'.find? fun y => f y == k := by
  cases hfind : l'.find? fun y => f y == k with
  | none =>
    rw [List.find?_eq_none] at hfind ⊢
    exact fun y hy => hfind y (hperm.mem_iff.1 hy)
  | some x =>
    have hx : x ∈ l := hperm.mem_iff.2 (List.mem_of_find?_eq_some hfind)
    obtain rfl : f x = k := by simpa using List.find?_some hfind
    exact find?_key_eq_some hx fun _ hy => List.inj_on_of_nodup_map hnodup hy hx

/-- Where keys differ, looking them all up gives the list back. -/
lemma filterMap_find?_key {α : Type*} {l : List α} {f : α → κ} (hnodup : (l.map f).Nodup) :
    ((l.map f).filterMap fun k => l.find? fun y => f y == k) = l := by
  rw [List.filterMap_map]
  refine (List.filterMap_congr ?_).trans List.filterMap_some
  exact fun x hx => find?_key_eq_some hx fun _ hy => List.inj_on_of_nodup_map hnodup hy hx

lemma takeWhile_ne_append_of_mem (hk : k ∈ keys) :
    (keys ++ keys').takeWhile (· != k) = keys.takeWhile (· != k) := by
  induction keys with
  | nil => cases hk
  | cons j keys ih =>
    rw [List.cons_append, List.takeWhile_cons, List.takeWhile_cons]
    split
    · next hjk => rw [ih (List.mem_of_ne_of_mem (Ne.symm (by simpa using hjk)) hk)]
    · rfl

lemma takeWhile_ne_append_cons (hk : k ∉ keys) :
    (keys ++ k :: keys').takeWhile (· != k) = keys := by
  rw [List.takeWhile_append_of_pos]
  · simp
  · intro j hj
    simpa using fun heq : j = k => hk (heq ▸ hj)

/-- Of several lists in a row, each one keeps what is in none of those before it. -/
theorem eraseDups_flatMap [EquivBEq α] (hnodup : keys.Nodup) (f : κ → List α) :
    (keys.flatMap f).eraseDups =
      keys.flatMap fun k => ((f k).removeAll ((keys.takeWhile (· != k)).flatMap f)).eraseDups := by
  induction keys using List.reverseRecOn with
  | nil => rfl
  | append_singleton keys k ih =>
    obtain ⟨hnodup, _, hdisjoint⟩ := List.nodup_append.1 hnodup
    have hk : k ∉ keys := fun hmem => hdisjoint k hmem k List.mem_cons_self rfl
    rw [List.flatMap_append, eraseDups_append, ih hnodup, List.flatMap_append]
    congr 1
    · apply List.flatMap_congr
      intro j hj
      rw [takeWhile_ne_append_of_mem hj]
    · rw [List.flatMap_singleton, List.flatMap_singleton, takeWhile_ne_append_cons hk]

end Keys

/-! ### Arguments, signatures and edges -/

lemma arguments_beq_iff {l l' : List Argument} :
    (l == l') = true ↔ l.map Argument.identity = l'.map Argument.identity := by
  induction l generalizing l' with
  | nil => cases l' <;> simp
  | cons a l ih =>
    cases l' with
    | nil => simp
    | cons a' l' => simp [Argument.beq_iff, ih]

/-- Signatures that are the same have the same name, arguments and return type. -/
lemma signature_beq_iff {s t : Signature} : (s == t) = true ↔
    s.scope = t.scope ∧ s.name = t.name ∧ (s.arguments == t.arguments) = true ∧
      s.returnTypeName = t.returnTypeName := by
  rw [Signature.beq_iff, arguments_beq_iff]
  simp [Signature.identity]

/-- Edges that are the same have the same argument and lead to the same place. -/
lemma edge_beq_iff {e f : Edge} : (e == f) = true ↔
    (e.argument == f.argument) = true ∧ e.target = f.target ∧ e.isParameter = f.isParameter ∧
      e.kind = f.kind := by
  rw [Edge.beq_iff, Argument.beq_iff]
  simp only [Edge.identity, Prod.mk.injEq, Edge.isParameter]
  constructor
  · rintro ⟨hargument, htarget, hkind⟩
    exact ⟨hargument, htarget, by rw [hkind], hkind⟩
  · rintro ⟨hargument, htarget, _, hkind⟩
    exact ⟨hargument, htarget, hkind⟩

end Wiring.Sameness

/-! ### Sorted names -/

namespace Wiring.Names

lemma sorted_congr {names names' : List String} (h : ∀ n, n ∈ names ↔ n ∈ names') :
    sorted names = sorted names' :=
  (pairwise_sorted names).eq_of_mem_iff (pairwise_sorted names')
    fun n => by rw [mem_sorted, mem_sorted, h]

end Wiring.Names
