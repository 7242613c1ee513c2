import Mathlib.Data.List.Induction
import Dynodoc.Transparency.Merkle

/-! A tree kept entirely in memory: the hashes of all complete subtrees, level by level. -/
namespace Dynodoc.Transparency
open List Nat

variable {Hash : Type} (H : Hasher Hash)

structure MemoryTree (Hash : Type) where
  levels : List (List Hash)
  deriving DecidableEq

/-- `append_leaf_hash` from one level on: a level that becomes even completes a subtree of
the next one. -/
def appendLevels : List (List Hash) → Hash → List (List Hash)
  | [], hash => [[hash]]
  | level :: above, hash =>
    let level := level ++ [hash]
    if even : level.length % 2 = 0 then
      have last : level.length - 1 < level.length := by simp [level]
      have before : level.length - 2 < level.length := by omega
      let parent := H.nodeHash level[level.length - 2] level[level.length - 1]
      level :: appendLevels above parent
    else level :: above

namespace MemoryTree

def appendLeafHash (tree : MemoryTree Hash) (hash : Hash) : MemoryTree Hash :=
  ⟨appendLevels H tree.levels hash⟩

def size (tree : MemoryTree Hash) : Nat := (tree.levels.head?.map List.length).getD 0

def node (tree : MemoryTree Hash) (level index : Nat) : Except Error Hash :=
  match tree.levels[level]?.bind fun hashes => hashes[index]? with
  | some hash => .ok hash
  | none => .error (.missingNode level index)

def source (tree : MemoryTree Hash) : HashSource Hash := ⟨tree.size, tree.node⟩

/-- The source expects a root here: the full tree is stored. -/
def root (tree : MemoryTree Hash) : Except Error Hash := treeRoot H tree.source tree.size

def ofLeaves (leaves : List Hash) : MemoryTree Hash := leaves.foldl (appendLeafHash H) ⟨[]⟩

end MemoryTree

def completeNodes (leaves : List Hash) (level : Nat) : List Hash :=
  (List.range (leaves.length / 2 ^ level)).map (nodeAt H leaves level)

variable (leaves : List Hash)

theorem nodeAt_append (leaf : Hash) {level index : Nat}
    (below : index < leaves.length / 2 ^ level) :
    nodeAt H (leaves ++ [leaf]) level index = nodeAt H leaves level index := by
  have inside : (index + 1) * 2 ^ level ≤ leaves.length :=
    (Nat.le_div_iff_mul_le (Nat.two_pow_pos level)).1 below
  have shared := nodeAt_take H (leaves ++ [leaf]) leaves.length level index inside
  rwa [take_left, eq_comm] at shared

theorem completeNodes_length (level : Nat) :
    (completeNodes H leaves level).length = leaves.length / 2 ^ level := by
  simp [completeNodes]

/-- A new leaf completes a subtree of every level whose width divides the new size. -/
theorem completeNodes_append (leaf : Hash) (level : Nat) :
    completeNodes H (leaves ++ [leaf]) level = completeNodes H leaves level ++
      if 2 ^ level ∣ leaves.length + 1 then
        [nodeAt H (leaves ++ [leaf]) level (leaves.length / 2 ^ level)]
      else [] := by
  have shared : (List.range (leaves.length / 2 ^ level)).map (nodeAt H (leaves ++ [leaf]) level) =
      completeNodes H leaves level := by
    apply map_congr_left
    intro index below
    exact nodeAt_append H leaves leaf (mem_range.1 below)
  rw [completeNodes, length_append, length_singleton, Nat.succ_div]
  split
  · rw [range_succ, map_append, shared]
    rfl
  · rw [Nat.add_zero, shared, append_nil]

section Append

variable {leaves : List Hash} {leaf : Hash} {low count : Nat}
  (full : leaves.length + 1 = (count + 1) * 2 ^ low)

include full

theorem completeNodes_full : completeNodes H (leaves ++ [leaf]) low =
    completeNodes H leaves low ++ [nodeAt H (leaves ++ [leaf]) low count] := by
  rw [completeNodes_append, if_pos ⟨count + 1, by rw [full, mul_comm]⟩, div_of_full full]

/-- Above a level whose last subtree is a left child nothing is completed. -/
theorem completeNodes_above (even : count % 2 = 0) (k : Nat) :
    completeNodes H (leaves ++ [leaf]) (low + (k + 1)) = completeNodes H leaves (low + (k + 1)) := by
  rw [completeNodes_append, if_neg, append_nil]
  rintro ⟨q, whole⟩
  have odd : count + 1 = 2 * (2 ^ k * q) := by
    apply Nat.eq_of_mul_eq_mul_right (Nat.two_pow_pos low)
    rw [← full, whole]
    ring
  omega

theorem appendLevels_complete {hash : Hash} {levels : List (List Hash)}
    (before : ∀ k, levels.getD k [] = completeNodes H leaves (low + k))
    (own : hash = nodeAt H (leaves ++ [leaf]) low count) (k : Nat) :
    (appendLevels H levels hash).getD k [] = completeNodes H (leaves ++ [leaf]) (low + k) := by
  induction levels generalizing low hash count k with
  | nil =>
    have none : count = 0 := by
      have empty := congrArg List.length (before 0)
      rw [completeNodes_length, add_zero, div_of_full full] at empty
      exact empty.symm
    cases k with
    | zero =>
      rw [add_zero, completeNodes_full H full, ← own, ← add_zero low, ← before 0]
      rfl
    | succ k =>
      rw [completeNodes_above H full (by omega), ← before (k + 1)]
      rfl
  | cons level rest ih =>
    have first : completeNodes H (leaves ++ [leaf]) low = level ++ [hash] := by
      rw [completeNodes_full H full, ← own]
      exact congrArg (· ++ [hash]) (before 0).symm
    have length : (level ++ [hash]).length = count + 1 := by
      rw [← first, completeNodes_length, length_append, length_singleton, full,
        Nat.mul_div_cancel _ (Nat.two_pow_pos low)]
    simp only [appendLevels]
    split
    · rename_i even
      cases k with
      | zero => exact first.symm
      | succ k =>
        have pair : leaves.length + 1 = (count / 2 + 1) * 2 ^ (low + 1) := by
          have halves : count + 1 = (count / 2 + 1) * 2 := by omega
          rw [full, halves]
          ring
        have at_ {i : Nat} (inside : i < (level ++ [hash]).length) :
            (level ++ [hash])[i] = nodeAt H (leaves ++ [leaf]) low i := by
          rw [getElem_of_eq first.symm inside]
          simp [completeNodes]
        have starts : (2 * (count / 2) + 1) * 2 ^ low < (leaves ++ [leaf]).length := by
          rw [length_append, length_singleton, full]
          exact Nat.mul_lt_mul_of_pos_right (by omega) (Nat.two_pow_pos low)
        have parent := nodeAt_pair H (leaves ++ [leaf]) low (count / 2) starts
        have left : 2 * (count / 2) = count + 1 - 2 := by omega
        have right : 2 * (count / 2) + 1 = count + 1 - 1 := by omega
        have shifted (k : Nat) : rest.getD k [] = completeNodes H leaves (low + 1 + k) := by
          rw [add_assoc, add_comm 1 k]
          exact before (k + 1)
        rw [← add_assoc, add_right_comm]
        refine ih pair shifted ?_ k
        rw [parent, right, left]
        simp [at_, length]
    · rename_i odd
      cases k with
      | zero => exact first.symm
      | succ k =>
        rw [completeNodes_above H full (by omega), ← before (k + 1)]
        rfl

end Append

namespace MemoryTree

theorem ofLeaves_levels (level : Nat) :
    (ofLeaves H leaves).levels.getD level [] = completeNodes H leaves level := by
  induction leaves using List.reverseRecOn generalizing level with
  | nil => simp [ofLeaves, completeNodes]
  | append_singleton leaves leaf ih =>
    have own : leaf = nodeAt H (leaves ++ [leaf]) 0 leaves.length := by
      rw [nodeAt_leaf H (by simp)]
      simp
    have added := appendLevels_complete H (by simp) (fun k => by rw [ih, zero_add]) own level
    rw [zero_add] at added
    rw [ofLeaves, foldl_append]
    exact added

theorem ofLeaves_size : (ofLeaves H leaves).size = leaves.length := by
  have first := congrArg List.length (ofLeaves_levels H leaves 0)
  rw [completeNodes_length, Nat.pow_zero, Nat.div_one] at first
  rw [size, ← first]
  cases (ofLeaves H leaves).levels <;> rfl

/-- A tree in memory answers for its complete subtrees and for nothing else. -/
theorem ofLeaves_node (level index : Nat) :
    (ofLeaves H leaves).node level index =
      if (index + 1) * 2 ^ level ≤ leaves.length then .ok (nodeAt H leaves level index)
      else .error (.missingNode level index) := by
  have found : ((ofLeaves H leaves).levels[level]?.bind fun hashes => hashes[index]?) =
      (completeNodes H leaves level)[index]? := by
    rw [← ofLeaves_levels H leaves level, getD_eq_getElem?_getD]
    cases (ofLeaves H leaves).levels[level]? <;> simp
  rw [node, found]
  by_cases inside : (index + 1) * 2 ^ level ≤ leaves.length
  · have below : index < leaves.length / 2 ^ level :=
      (Nat.le_div_iff_mul_le (Nat.two_pow_pos level)).2 inside
    simp [completeNodes, inside, below]
  · have beyond : leaves.length / 2 ^ level ≤ index :=
      Nat.lt_succ_iff.1 ((Nat.div_lt_iff_lt_mul (Nat.two_pow_pos level)).2 (Nat.not_le.1 inside))
    simp [completeNodes, inside, beyond]

theorem ofLeaves_stores : (ofLeaves H leaves).source.Stores H leaves where
  size := ofLeaves_size H leaves
  node := by
    intro level index inside
    have answer := ofLeaves_node H leaves level index
    rwa [if_pos inside] at answer

end MemoryTree

end Dynodoc.Transparency
