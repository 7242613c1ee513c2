import Mathlib.Data.List.Dedup
import Mathlib.Data.List.Perm.Lattice
import Mathlib.Data.List.Perm.Subperm

/-! Counting voters, each for itself or all voters of a group as one. -/
namespace Voting
open List

variable {α β : Type}
variable {l : List α} {p q : α → Bool}

theorem countP_add_countP_le (p q : α → Bool) (l : List α) :
    l.countP p + l.countP q ≤ l.length + l.countP fun a => p a && q a := by
  induction l with
  | nil => simp
  | cons a l ih =>
    simp only [countP_cons]
    cases p a <;> cases q a <;> simp <;> omega

theorem exists_of_countP_lt (more : l.countP q < l.countP p) :
    ∃ a ∈ l, p a = true ∧ q a = false := by
  by_contra none
  simp only [not_exists, not_and, Bool.not_eq_false] at none
  exact absurd (countP_mono_left none) (by omega)

/-- Two majorities have a member in common. -/
theorem exists_common (many : l.length < l.countP p + l.countP q) :
    ∃ a ∈ l, p a = true ∧ q a = true := by
  have overlap := countP_add_countP_le p q l
  obtain ⟨a, mem, both⟩ := countP_pos_iff.1
    (show 0 < l.countP fun a => p a && q a by omega)
  exact ⟨a, mem, by simpa using both⟩

variable [DecidableEq β] (group : α → β)

def groups (l : List α) : List β := (l.map group).dedup

/-- The groups with two voters or more. -/
def shared (l : List α) : List β :=
  (groups group l).filter fun g => 2 ≤ l.countP fun a => group a = g

/-- The groups with one voter. -/
def alone (l : List α) : List β := (groups group l).filter fun g => g ∉ shared group l

variable {group}

theorem mem_groups {g : β} : g ∈ groups group l ↔ ∃ a ∈ l, group a = g := by
  rw [groups, mem_dedup, mem_map]

/-- The groups of those voters that have a property, among all groups. -/
theorem length_groups_filter (p : α → Bool) (l : List α) :
    (groups group (l.filter p)).length =
      (groups group l).countP fun g => g ∈ groups group (l.filter p) := by
  rw [countP_eq_length_filter]
  refine List.Perm.length_eq ((perm_ext_iff_of_nodup (nodup_dedup _)
    ((nodup_dedup _).filter _)).2 fun g => ?_)
  rw [mem_filter, decide_eq_true_eq]
  refine ⟨fun mem => ⟨?_, mem⟩, And.right⟩
  obtain ⟨a, inside, same⟩ := mem_groups.1 mem
  exact mem_groups.2 ⟨a, (mem_filter.1 inside).1, same⟩

theorem eq_of_countP_lt_two {p : α → Bool} (few : l.countP p < 2) {a b : α} (inA : a ∈ l)
    (inB : b ∈ l) (pa : p a = true) (pb : p b = true) : a = b := by
  rw [countP_eq_length_filter] at few
  have memA : a ∈ l.filter p := mem_filter.2 ⟨inA, pa⟩
  have memB : b ∈ l.filter p := mem_filter.2 ⟨inB, pb⟩
  match found : l.filter p with
  | [] => simp [found] at memA
  | [c] =>
    rw [found, mem_singleton] at memA memB
    rw [memA, memB]
  | _ :: _ :: _ =>
    rw [found, length_cons, length_cons] at few
    omega

/-- Two majorities of groups have a voter in common when they have more groups in common than
there are groups that can send different voters. -/
theorem exists_common_of_groups (group : α → β)
    (many : (groups group l).length + (shared group l).length <
      (groups group (l.filter p)).length + (groups group (l.filter q)).length) :
    ∃ a ∈ l, p a = true ∧ q a = true := by
  rw [length_groups_filter p, length_groups_filter q, shared, ← countP_eq_length_filter] at many
  have overlap := countP_add_countP_le (fun g => decide (g ∈ groups group (l.filter p)))
    (fun g => decide (g ∈ groups group (l.filter q))) (groups group l)
  obtain ⟨g, -, both, alone⟩ :=
    exists_of_countP_lt (Nat.lt_of_add_lt_add_left (Nat.lt_of_lt_of_le many overlap))
  rw [Bool.and_eq_true, decide_eq_true_eq, decide_eq_true_eq] at both
  obtain ⟨a, inA, groupA⟩ := mem_groups.1 both.1
  obtain ⟨b, inB, groupB⟩ := mem_groups.1 both.2
  rw [mem_filter] at inA inB
  have same : a = b := eq_of_countP_lt_two (Nat.lt_of_not_le (of_decide_eq_false alone)) inA.1 inB.1
    (decide_eq_true groupA) (decide_eq_true groupB)
  exact ⟨a, inA.1, inA.2, same ▸ inB.2⟩

theorem length_le_groups {few : List β} (nodup : few.Nodup)
    (voted : ∀ g ∈ few, ∃ a ∈ l, p a = true ∧ group a = g) :
    few.length ≤ (groups group (l.filter p)).length := by
  refine (nodup.subperm fun g mem => ?_).length_le
  obtain ⟨a, inside, holds, same⟩ := voted g mem
  exact mem_groups.2 ⟨a, mem_filter.2 ⟨inside, holds⟩, same⟩

/-- The first voter of its group. -/
def IsFirst (group : α → β) (l : List α) (a : α) : Prop :=
  l.find? (fun b => group b = group a) = some a

theorem exists_isFirst {g : β} (mem : g ∈ groups group l) :
    ∃ a ∈ l, IsFirst group l a ∧ group a = g := by
  obtain ⟨b, inside, rfl⟩ := mem_groups.1 mem
  obtain ⟨a, found⟩ := Option.isSome_iff_exists.1
    ((find?_isSome (p := fun a => decide (group a = group b))).2 ⟨b, inside, by simp⟩)
  have same : group a = group b := by simpa using find?_some found
  exact ⟨a, mem_of_find?_eq_some found, by rwa [IsFirst, same], same⟩

theorem exists_not_isFirst (nodup : l.Nodup) {g : β} (mem : g ∈ shared group l) :
    ∃ a ∈ l, ¬ IsFirst group l a ∧ group a = g := by
  obtain ⟨-, two⟩ := mem_filter.1 mem
  rw [decide_eq_true_eq, countP_eq_length_filter] at two
  have distinct := nodup.filter fun a => decide (group a = g)
  match found : l.filter fun a => decide (group a = g) with
  | [] | [_] => simp [found] at two
  | a :: b :: _ =>
    rw [found] at distinct
    have inA : a ∈ l.filter fun a => decide (group a = g) := found ▸ mem_cons_self
    have inB : b ∈ l.filter fun a => decide (group a = g) := found ▸ mem_cons_of_mem _ mem_cons_self
    simp only [mem_filter, decide_eq_true_eq] at inA inB
    -- Of two voters of one group only one is the first.
    by_cases first : IsFirst group l a
    · refine ⟨b, inB.1, fun also => ?_, inB.2⟩
      rw [IsFirst, inB.2, ← inA.2, first] at also
      simp_all
    · exact ⟨a, inA.1, first, inA.2⟩

theorem length_shared_add_alone :
    (shared group l).length + (alone group l).length = (groups group l).length := by
  rw [length_eq_length_filter_add (l := groups group l) fun g => g ∈ shared group l]
  congr 2
  · exact filter_congr fun g mem => by simp [shared, mem]
  · exact filter_congr fun g _ => by simp

theorem nodup_alone : (alone group l).Nodup := (nodup_dedup _).filter _

theorem nodup_shared_append {more : List β} (sub : more.Sublist (alone group l)) :
    (shared group l ++ more).Nodup := by
  refine nodup_append.2
    ⟨(nodup_dedup _).filter _, sub.nodup nodup_alone, fun g mem g' mem' same => ?_⟩
  have apart := (mem_filter.1 (sub.subset mem')).2
  rw [← same] at apart
  simp [mem] at apart

/-- Two quorums without a common voter, when there are votes enough for both once a group with
two voters may vote twice. -/
theorem exists_apart (nodup : l.Nodup) {quorum : Nat} (possible : quorum ≤ (groups group l).length)
    (few : 2 * quorum ≤ (groups group l).length + (shared group l).length) :
    ∃ p q : α → Bool, quorum ≤ (groups group (l.filter p)).length ∧
      quorum ≤ (groups group (l.filter q)).length ∧ ∀ a, ¬ (p a = true ∧ q a = true) := by
  classical
  let needed := quorum - (shared group l).length
  have split : (shared group l).length + (alone group l).length = (groups group l).length :=
    length_shared_add_alone
  -- First voters make the first quorum, but for the groups with one voter that the second needs.
  refine ⟨fun a => decide (IsFirst group l a ∧ group a ∉ (alone group l).drop needed),
    fun a => decide (IsFirst group l a → group a ∈ (alone group l).drop needed), ?_, ?_,
    fun a both => ?_⟩
  · have distinct := nodup_shared_append (take_sublist needed (alone group l))
    refine Nat.le_trans ?_ (length_le_groups distinct fun g mem => ?_)
    · simp only [length_append, length_take]
      omega
    · have kept : g ∉ (alone group l).drop needed := by
        intro dropped
        obtain inShared | taken := mem_append.1 mem
        · simpa [inShared] using (mem_filter.1 (mem_of_mem_drop dropped)).2
        · exact disjoint_take_drop nodup_alone (Nat.le_refl _) taken dropped
      have isGroup : g ∈ groups group l := by
        obtain inShared | taken := mem_append.1 mem
        · exact mem_of_mem_filter inShared
        · exact mem_of_mem_filter (mem_of_mem_take taken)
      obtain ⟨a, inside, first, rfl⟩ := exists_isFirst isGroup
      exact ⟨a, inside, by simp [first, kept], rfl⟩
  · have distinct := nodup_shared_append (drop_sublist needed (alone group l))
    refine Nat.le_trans ?_ (length_le_groups distinct fun g mem => ?_)
    · simp only [length_append, length_drop]
      omega
    · obtain inShared | dropped := mem_append.1 mem
      · obtain ⟨a, inside, later, same⟩ := exists_not_isFirst nodup inShared
        exact ⟨a, inside, by simp [later], same⟩
      · obtain ⟨a, inside, -, rfl⟩ := exists_isFirst (mem_of_mem_filter (mem_of_mem_drop dropped))
        exact ⟨a, inside, by simp [dropped], rfl⟩
  · simp only [decide_eq_true_eq] at both
    exact both.1.2 (both.2 both.1.1)

end Voting
