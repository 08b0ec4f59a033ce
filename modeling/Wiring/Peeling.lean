/-!
# Ordering elements by what they need

Every element comes with the elements that it needs. Elements are taken off one by one, always
the first one that no remaining element needs, so that each element is taken before what it
needs. Nothing is left to take exactly when the elements need each other in a circle.

The comparison of elements is a parameter. A need stands for the first entry whose element it is
the same as; a need that fits no entry does not count.
-/

namespace Wiring

/-- An element with the elements that it needs. -/
structure Demand (α : Type _) where
  element : α
  needs : List α
deriving DecidableEq, Repr

namespace Peeling

variable {α : Type _}

/-! ### Updating the first entry that fits -/

/-- Change the first member of a list that satisfies `p`. -/
def updateFirst {β : Type _} (p : β → Bool) (f : β → β) : List β → List β
  | [] => []
  | b :: rest => if p b then f b :: rest else b :: updateFirst p f rest

@[simp] theorem length_updateFirst {β : Type _} (p : β → Bool) (f : β → β) (l : List β) :
    (updateFirst p f l).length = l.length := by
  induction l with
  | nil => rfl
  | cons b rest ih =>
    simp only [updateFirst]
    split <;> simp [ih]

/-! ### Entries -/

/-- A demand with the elements, not taken yet, that need its element. -/
structure Entry (α : Type _) where
  element : α
  needs : List α
  waiting : List α
deriving DecidableEq, Repr

/-- Tell the entry of every need of `demand` that the element waits for it. -/
def register (same : α → α → Bool) (entries : List (Entry α)) (demand : Demand α) :
    List (Entry α) :=
  demand.needs.foldl (fun entries need =>
    updateFirst (fun entry => same entry.element need)
      (fun entry => { entry with waiting := entry.waiting ++ [demand.element] }) entries) entries

/-- The entries of all demands, each with everything that waits for it. -/
def entries (same : α → α → Bool) (demands : List (Demand α)) : List (Entry α) :=
  demands.foldl (register same) (demands.map fun demand => ⟨demand.element, demand.needs, []⟩)

/-- Tell the entry of every need of the taken entry that it is not waited for any more. -/
def settle (same : α → α → Bool) (taken : Entry α) (entries : List (Entry α)) :
    List (Entry α) :=
  taken.needs.foldl (fun entries need =>
    updateFirst (fun entry => same entry.element need)
      (fun entry => { entry with waiting := entry.waiting.eraseP (same · taken.element) })
      entries) entries

@[simp] theorem length_settle (same : α → α → Bool) (taken : Entry α) (entries : List (Entry α)) :
    (settle same taken entries).length = entries.length := by
  unfold settle
  induction taken.needs generalizing entries with
  | nil => rfl
  | cons need rest ih => simp [ih]

/-- The first entry that nothing waits for, and the other entries. -/
def takeFree? : List (Entry α) → Option (Entry α × List (Entry α))
  | [] => none
  | entry :: rest =>
    if entry.waiting.isEmpty then some (entry, rest)
    else (takeFree? rest).map fun (taken, others) => (taken, entry :: others)

theorem length_of_takeFree? {entries others : List (Entry α)} {taken : Entry α}
    (h : takeFree? entries = some (taken, others)) : others.length + 1 = entries.length := by
  induction entries generalizing others with
  | nil => simp [takeFree?] at h
  | cons entry rest ih =>
    simp only [takeFree?] at h
    split at h
    · simp_all
    · obtain ⟨⟨taken', others'⟩, h', heq⟩ := Option.map_eq_some_iff.1 h
      obtain ⟨rfl, rfl⟩ := Prod.mk.inj heq
      simp [← ih h']

/-! ### Taking the elements off -/

/-- The elements in the order in which they are taken off, if none is left over. -/
def order (same : α → α → Bool) (entries : List (Entry α)) : Option (List α) :=
  match h : takeFree? entries with
  | some (taken, others) =>
    have : others.length < entries.length := by have := length_of_takeFree? h; omega
    (order same (settle same taken others)).map (taken.element :: ·)
  | none => if entries.isEmpty then some [] else none
termination_by entries.length
decreasing_by simpa using this

end Peeling

/-- The elements, each before those that it needs; nothing if they need each other in a circle. -/
def peel {α : Type _} (same : α → α → Bool) (demands : List (Demand α)) : Option (List α) :=
  Peeling.order same (Peeling.entries same demands)

end Wiring
