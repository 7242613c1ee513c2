import Dynodoc.Transparency.MemoryTree

/-! The right edge of a tree: the roots of the complete subtrees that make it up, the
smallest one first. -/
namespace Dynodoc.Transparency
open List

variable {Hash : Type} (H : Hasher Hash)
variable {leaves : List Hash} {frontier : List (Nat × Hash)} {stop : Nat}

/-- The edge of the first `stop` leaves. Every subtree starts at a multiple of twice its
width, so the widths grow along the list. -/
inductive Peaks (leaves : List Hash) : Nat → List (Nat × Hash) → Prop where
  | nil : Peaks leaves 0 []
  | cons {start level : Nat} {rest : List (Nat × Hash)} (before : Peaks leaves start rest)
      (aligned : 2 ^ (level + 1) ∣ start) (inside : start + 2 ^ level ≤ leaves.length) :
      Peaks leaves (start + 2 ^ level) ((level, nodeAt H leaves level (start / 2 ^ level)) :: rest)

variable {H} {level : Nat}

/-- A subtree that ends where one of width `2 ^ low` may start is wider than that. -/
theorem Peaks.above {stop low : Nat}
    (peaks : Peaks H leaves stop frontier) (aligned : 2 ^ (low + 1) ∣ stop)
    (head : level ∈ frontier.head?.map Prod.fst) : low < level := by
  cases peaks with
  | nil => cases head
  | @cons start wide rest before own inside =>
    obtain rfl : wide = level := Option.some.inj head
    by_contra narrow
    have divides : 2 ^ (wide + 1) ∣ start + 2 ^ wide :=
      (Nat.pow_dvd_pow 2 (by omega)).trans aligned
    have single : 2 ^ (wide + 1) ∣ 2 ^ wide := (Nat.dvd_add_right own).1 divides
    have le := Nat.le_of_dvd (Nat.two_pow_pos wide) single
    omega

theorem Peaks.append (peaks : Peaks H leaves stop frontier) (leaf : Hash) :
    Peaks H (leaves ++ [leaf]) stop frontier := by
  induction peaks with
  | nil => exact .nil
  | @cons start level rest before aligned inside ih =>
    have below : start / 2 ^ level < leaves.length / 2 ^ level := by
      rw [Nat.lt_iff_add_one_le, ← Nat.add_div_right start (Nat.two_pow_pos level)]
      exact Nat.div_le_div_right inside
    rw [← nodeAt_append H leaves leaf below]
    refine .cons ih aligned ?_
    rw [length_append]
    omega

theorem div_mul_of_aligned {start level : Nat} (aligned : 2 ^ (level + 1) ∣ start) :
    start / 2 ^ level * 2 ^ level = start :=
  Nat.div_mul_cancel ((Nat.pow_dvd_pow 2 (Nat.le_succ level)).trans aligned)

theorem Peaks.foldl (peaks : Peaks H leaves stop frontier) (some : stop < leaves.length)
    (narrow : ∀ level ∈ frontier.head?.map Prod.fst, leaves.length ≤ stop + 2 ^ level) :
    frontier.foldl (fun right peak => H.nodeHash peak.2 right) (treeHash H (leaves.drop stop)) =
      treeHash H leaves := by
  induction peaks with
  | nil => rfl
  | @cons start level rest before aligned inside ih =>
    have fits : leaves.length ≤ start + 2 ^ level + 2 ^ level := narrow level rfl
    have length : (leaves.drop start).length = leaves.length - start := length_drop
    have cut : split (leaves.drop start).length = 2 ^ level := split_eq (by omega) (by omega)
    have joined : H.nodeHash (nodeAt H leaves level (start / 2 ^ level))
        (treeHash H (leaves.drop (start + 2 ^ level))) = treeHash H (leaves.drop start) := by
      rw [treeHash_split H (leaves.drop start) (by omega), cut, nodeAt, segment,
        div_mul_of_aligned aligned, drop_drop]
    rw [foldl_cons, joined]
    refine ih (by omega) ?_
    intro above head
    have wider := Nat.pow_le_pow_right (show 0 < 2 by decide) (before.above aligned head)
    omega

theorem Peaks.root {hash : Hash} {rest : List (Nat × Hash)}
    (peaks : Peaks H leaves leaves.length ((level, hash) :: rest)) :
    rest.foldl (fun right peak => H.nodeHash peak.2 right) hash = treeHash H leaves := by
  generalize stop : leaves.length = count at peaks
  cases peaks with
  | @cons start _ _ before aligned inside =>
    have last : nodeAt H leaves level (start / 2 ^ level) = treeHash H (leaves.drop start) := by
      rw [nodeAt, segment, div_mul_of_aligned aligned, take_of_length_le]
      rw [length_drop]
      omega
    rw [last]
    refine before.foldl (by omega) ?_
    intro above head
    have wider := Nat.pow_le_pow_right (show 0 < 2 by decide)
      (Nat.le_of_lt (before.above aligned head))
    omega

theorem Peaks.eq_zero (peaks : Peaks H leaves stop []) : stop = 0 := by
  cases peaks
  rfl

end Dynodoc.Transparency
