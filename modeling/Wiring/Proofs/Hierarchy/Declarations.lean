import Wiring.Hierarchy
import Wiring.Proofs.Sameness

/-!
# Declarations in force

An interface may be declared again, and the declarations are gone through one by one. What they come
to can be said at once: for every name its last declaration, at the place of its first one
(`Hierarchy.effective_eq_inForce`).
-/

namespace Wiring.Hierarchy

open Sameness

variable {declared known : List Interface} {i j : Interface} {name : String}

/-! ### One more declaration -/

lemma effective_append_singleton (declared : List Interface) (i : Interface) :
    effective (declared ++ [i]) = declare (effective declared) i := by
  rw [effective, List.foldl_append]
  rfl

/-- A declaration puts itself in force and nothing of the same name besides. -/
lemma mem_declare_iff : j ∈ declare known i ↔ j = i ∨ j ∈ known ∧ j.name ≠ i.name := by
  rw [declare]
  split
  · next hknown =>
    simp only [List.any_eq_true, beq_iff_eq] at hknown
    obtain ⟨k, hk, hkname⟩ := hknown
    rw [List.mem_map]
    constructor
    · rintro ⟨l, hl, rfl⟩
      split
      · exact .inl rfl
      · next hname => exact .inr ⟨hl, hname⟩
    · rintro (rfl | ⟨hj, hname⟩)
      · exact ⟨k, hk, if_pos hkname⟩
      · exact ⟨j, hj, if_neg hname⟩
  · next hnew =>
    simp only [List.any_eq_true, beq_iff_eq, not_exists, not_and] at hnew
    rw [List.mem_append, List.mem_singleton, or_comm]
    exact or_congr Iff.rfl ⟨fun hj => ⟨hj, hnew j hj⟩, And.left⟩

/-! ### All declarations -/

/-- The last declaration of a name. -/
def lastDeclared? (declared : List Interface) (name : String) : Option Interface :=
  (declared.filter (·.name == name)).getLast?

/-- For every name its last declaration, the names in the order of their first declarations. -/
def inForce (declared : List Interface) : List Interface :=
  (declared.map Interface.name).eraseDups.filterMap (lastDeclared? declared)

lemma lastDeclared?_append_singleton : lastDeclared? (declared ++ [i]) name =
    if i.name = name then some i else lastDeclared? declared name := by
  rw [lastDeclared?, List.filter_append, List.getLast?_append]
  split
  · next hname => simp [hname]
  · next hname => simp [hname, lastDeclared?]

lemma mem_of_lastDeclared? (h : lastDeclared? declared name = some i) :
    i ∈ declared ∧ i.name = name := by
  have hi := List.mem_filter.1 (List.mem_of_getLast? h)
  exact ⟨hi.1, by simpa using hi.2⟩

lemma lastDeclared?_eq_none_iff :
    lastDeclared? declared name = none ↔ name ∉ declared.map Interface.name := by
  rw [lastDeclared?, List.getLast?_eq_none_iff, List.filter_eq_nil_iff]
  simp

theorem mem_effective_iff : i ∈ effective declared ↔ lastDeclared? declared i.name = some i := by
  induction declared using List.reverseRecOn with
  | nil => simp [effective, lastDeclared?]
  | append_singleton declared j ih =>
    rw [effective_append_singleton, mem_declare_iff, ih, lastDeclared?_append_singleton]
    split
    · next hname =>
      rw [Option.some.injEq, eq_comm, or_iff_left]
      exact fun h => h.2 hname.symm
    · next hname =>
      constructor
      · rintro (rfl | ⟨hlast, _⟩)
        · exact absurd rfl hname
        · exact hlast
      · exact fun hlast => .inr ⟨hlast, fun h => hname h.symm⟩

theorem names_effective (declared : List Interface) :
    (effective declared).map Interface.name = (declared.map Interface.name).eraseDups := by
  induction declared using List.reverseRecOn with
  | nil => rfl
  | append_singleton declared i ih =>
    rw [effective_append_singleton, names_declare, ih, List.map_append, eraseDups_append]
    split
    · next hold => simp_all [List.removeAll]
    · next hnew => simp_all [List.removeAll, List.eraseDups_cons]

/-- What has been declared under a name is looked up by its last declaration. -/
theorem find?_effective (declared : List Interface) (name : String) :
    (effective declared).find? (·.name == name) = lastDeclared? declared name := by
  cases hlast : lastDeclared? declared name with
  | none =>
    rw [find?_key_eq_none_iff, names_effective, List.mem_eraseDups]
    exact lastDeclared?_eq_none_iff.1 hlast
  | some i =>
    obtain ⟨_, rfl⟩ := mem_of_lastDeclared? hlast
    have hi : i ∈ effective declared := mem_effective_iff.2 hlast
    exact find?_key_eq_some hi fun _ hj =>
      List.inj_on_of_nodup_map (nodup_names_effective declared) hj hi

/-- Going through the declarations puts the last one of every name in force. -/
theorem effective_eq_inForce (declared : List Interface) :
    effective declared = inForce declared := by
  have hback := filterMap_find?_key (nodup_names_effective declared)
  simp only [find?_effective, names_effective] at hback
  exact hback.symm

/-! ### What is in force -/

lemma mem_names_effective :
    name ∈ (effective declared).map Interface.name ↔ name ∈ declared.map Interface.name := by
  rw [names_effective, List.mem_eraseDups]

/-- What is in force has been declared. -/
lemma mem_of_mem_effective (hi : i ∈ effective declared) : i ∈ declared :=
  (mem_of_lastDeclared? (mem_effective_iff.1 hi)).1

/-- A declaration of a new name comes last. -/
lemma effective_append_of_new (hnew : i.name ∉ declared.map Interface.name) :
    effective (declared ++ [i]) = effective declared ++ [i] := by
  have hi : ¬ (effective declared).any (·.name == i.name) = true := by
    rw [← mem_names_effective] at hnew
    simpa using hnew
  rw [effective_append_singleton, declare, if_neg hi]

/-- The declarations in force stand in the order of the first declarations. -/
lemma pairwise_names_effective : ((effective declared).map Interface.name).Pairwise fun a b =>
    (declared.map Interface.name).idxOf a < (declared.map Interface.name).idxOf b := by
  induction declared using List.reverseRecOn with
  | nil => exact .nil
  | append_singleton declared i ih =>
    have hearlier : ((effective declared).map Interface.name).Pairwise fun a b =>
        ((declared ++ [i]).map Interface.name).idxOf a <
          ((declared ++ [i]).map Interface.name).idxOf b := by
      refine ih.imp_of_mem ?_
      intro a b ha hb hab
      rw [List.map_append, List.idxOf_append_of_mem (mem_names_effective.1 ha),
        List.idxOf_append_of_mem (mem_names_effective.1 hb)]
      exact hab
    rw [effective_append_singleton, names_declare]
    split
    · exact hearlier
    · next hnew =>
      refine List.pairwise_append.2 ⟨hearlier, List.pairwise_singleton _ _, ?_⟩
      intro a ha b hb
      rw [mem_names_effective] at ha hnew
      rw [List.mem_singleton.1 hb, List.map_append, List.idxOf_append_of_mem ha,
        List.idxOf_append_of_notMem hnew]
      exact (List.idxOf_lt_length_of_mem ha).trans_le (Nat.le_add_right _ _)

end Wiring.Hierarchy
