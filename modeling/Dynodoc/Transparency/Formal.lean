import Dynodoc.Transparency.Consistency

/-! Hashes that can always be taken apart. A root that a client has seen need not be the
root of any leaves the client could name. Formal halves give every hash two parts, so every
root is the root of formal leaves of any number, and what is true of trees with leaves
carries over to roots alone. -/
namespace Dynodoc.Transparency
open List Walk

inductive Formal (Hash : Type) where
  | hash (h : Hash)
  | left (whole : Formal Hash)
  | right (whole : Formal Hash)
  | node (left right : Formal Hash)

namespace Formal

variable {Hash : Type} (H : Hasher Hash)

/-- What has no parts of its own, and so gets formal ones. -/
def Atom : Formal Hash → Prop
  | hash h => ∀ a b, H.nodeHash a b ≠ h
  | left _ | right _ => True
  | node .. => False

open Classical in
noncomputable def nodeHash : Formal Hash → Formal Hash → Formal Hash
  | hash a, hash b => hash (H.nodeHash a b)
  | left u, right v => if u = v ∧ Atom H u then u else node (left u) (right v)
  | a, b => node a b

noncomputable def hasher : Hasher (Formal Hash) := ⟨nodeHash H, hash H.emptyRoot⟩

variable {H}

theorem nodeHash_cases (a b : Formal Hash) :
    (∃ x y, a = hash x ∧ b = hash y ∧ nodeHash H a b = hash (H.nodeHash x y)) ∨
    (∃ u, a = left u ∧ b = right u ∧ Atom H u ∧ nodeHash H a b = u) ∨
    nodeHash H a b = node a b := by
  fun_cases nodeHash H a b with
  | case1 x y => exact .inl ⟨x, y, rfl, rfl, rfl⟩
  | case2 u v same =>
    obtain ⟨rfl, atom⟩ := same
    exact .inr (.inl ⟨u, rfl, rfl, atom, rfl⟩)
  | case3 => exact .inr (.inr rfl)
  | case4 => exact .inr (.inr rfl)

theorem nodeHash_injective
    (injective : ∀ a b c d, H.nodeHash a b = H.nodeHash c d → a = c ∧ b = d)
    (a b c d : Formal Hash) (same : nodeHash H a b = nodeHash H c d) : a = c ∧ b = d := by
  have apart (x y : Hash) : ¬ Atom H (hash (H.nodeHash x y)) := fun atom => atom x y rfl
  rcases @nodeHash_cases _ H a b with ⟨x, y, rfl, rfl, built⟩ | ⟨u, rfl, rfl, atom, built⟩ | built <;>
  rcases @nodeHash_cases _ H c d with ⟨z, w, rfl, rfl, built'⟩ | ⟨v, rfl, rfl, atom', built'⟩ | built' <;>
  rw [built, built'] at same
  · obtain ⟨rfl, rfl⟩ := injective _ _ _ _ (Formal.hash.inj same)
    exact ⟨rfl, rfl⟩
  · exact absurd (same ▸ atom') (apart x y)
  · contradiction
  · exact absurd (same ▸ atom) (apart z w)
  · rw [same]
    exact ⟨rfl, rfl⟩
  · rw [same] at atom
    exact atom.elim
  · contradiction
  · rw [← same] at atom'
    exact atom'.elim
  · exact Formal.node.inj same

/-- Hashes and their formal parts, without pairs of parts that do not belong together. -/
def Plain : Formal Hash → Prop
  | node .. => False
  | _ => True

theorem exists_parts {v : Formal Hash} (plain : v.Plain) :
    ∃ a b, a.Plain ∧ b.Plain ∧ nodeHash H a b = v := by
  have halves (atom : Atom H v) : nodeHash H (left v) (right v) = v := by
    rw [nodeHash, if_pos ⟨rfl, atom⟩]
  by_cases atom : Atom H v
  · exact ⟨left v, right v, trivial, trivial, halves atom⟩
  · cases v with
    | hash h =>
      simp only [Atom, not_forall, not_not] at atom
      obtain ⟨a, b, rfl⟩ := atom
      exact ⟨hash a, hash b, trivial, trivial, rfl⟩
    | left => exact absurd trivial atom
    | right => exact absurd trivial atom
    | node => exact plain.elim

/-- Every hash is the root of as many formal leaves as one likes. -/
theorem exists_leaves (size : Nat) (positive : 0 < size) {v : Formal Hash} (plain : v.Plain) :
    ∃ leaves : List (Formal Hash), leaves.length = size ∧ treeHash (hasher H) leaves = v := by
  induction size using Nat.strongRecOn generalizing v with
  | ind size ih =>
    by_cases one : size = 1
    · exact ⟨[v], one.symm, by rw [treeHash]⟩
    · have lt := split_lt (n := size) (by omega)
      have pos := split_pos size
      obtain ⟨a, b, plainA, plainB, parts⟩ := exists_parts plain
      obtain ⟨front, frontLen, frontRoot⟩ := ih (split size) lt pos plainA
      obtain ⟨back, backLen, backRoot⟩ := ih (size - split size) (by omega) (by omega) plainB
      have len : (front ++ back).length = size := by
        rw [length_append]
        omega
      refine ⟨front ++ back, len, ?_⟩
      rw [treeHash_split _ _ (by omega), len, ← frontLen, take_left, drop_left, frontRoot,
        backRoot]
      exact parts

end Formal

section Map

variable {Hash Hash' : Type} {H : Hasher Hash} {H' : Hasher Hash'} {f : Hash → Hash'}
  (node : ∀ a b, f (H.nodeHash a b) = H'.nodeHash (f a) (f b))
  (empty : f H.emptyRoot = H'.emptyRoot)

include node empty in
theorem treeHash_map (leaves : List Hash) : treeHash H' (leaves.map f) = f (treeHash H leaves) := by
  fun_induction treeHash H leaves with
  | case1 => rw [empty, map_nil, treeHash]
  | case2 leaf => rw [map_singleton, treeHash]
  | case3 a b rest k front back =>
    rw [treeHash_split _ _ (by simp), length_map, ← map_take, ← map_drop, node,
      ← front, ← back]

def Walk.map (f : Hash → Hash') (w : Walk Hash) : Walk Hash' :=
  ⟨w.fnode, w.snode, f w.firstHash, f w.secondHash⟩

include node in
theorem step_map {w next : Walk Hash} {s : Hash} (stepped : w.step H s = .ok next) :
    (w.map f).step H' (f s) = .ok (next.map f) := by
  rw [Walk.map, Walk.map]
  simp only [Walk.step] at stepped ⊢
  split at stepped
  · contradiction
  rename_i inner
  rw [if_neg inner]
  split at stepped
  · rename_i left
    cases stepped
    rw [if_pos left, node, node]
  · rename_i right
    cases stepped
    rw [if_neg right, node]

include node in
theorem run_map {w final : Walk Hash} {proof : List Hash} (walked : w.run H proof = .ok final) :
    (w.map f).run H' (proof.map f) = .ok (final.map f) := by
  induction proof generalizing w with
  | nil =>
    cases walked
    rfl
  | cons s rest ih =>
    rw [run] at walked
    cases stepped : w.step H s with
    | error e => simp [stepped, Except.bind] at walked
    | ok next =>
      rw [stepped] at walked
      rw [map_cons, run, step_map node stepped]
      exact ih walked

include node empty in
/-- Hashes may be renamed in a whole proof. -/
theorem verifyConsistency_map [DecidableEq Hash] [DecidableEq Hash'] {first second : Nat}
    {firstRoot secondRoot : Hash} {proof : List Hash}
    (accepted : verifyConsistency H first second firstRoot secondRoot proof = .ok ()) :
    verifyConsistency H' first second (f firstRoot) (f secondRoot) (proof.map f) = .ok () := by
  have path : (if isPowerOfTwo first then [f firstRoot] else []) ++ proof.map f =
      ((if isPowerOfTwo first then [firstRoot] else []) ++ proof).map f := by
    split <;> rfl
  unfold verifyConsistency at accepted ⊢
  rw [length_map, path]
  split at accepted
  · contradiction
  rename_i fits
  rw [if_neg fits]
  split at accepted
  · rename_i same
    rw [if_pos same]
    split at accepted
    · rename_i checked
      rw [checked.1, checked.2]
      simp
    · contradiction
  · rename_i other
    rw [if_neg other]
    split at accepted
    · rename_i zero
      rw [if_pos zero]
      split at accepted
      · rename_i checked
        rw [checked.1, checked.2, empty]
        simp
      · contradiction
    · rename_i positive
      rw [if_neg positive]
      split at accepted
      · contradiction
      rename_i start rest split
      dsimp only at accepted
      split at accepted
      · contradiction
      rename_i final walked
      split at accepted
      · rename_i checked
        obtain ⟨ended, firstHash, secondHash⟩ := checked
        have walked' := run_map node walked
        simp only [Walk.map] at walked'
        simp only [split, map_cons, walked', ended, firstHash, secondHash, and_self,
          if_true]
      · contradiction

end Map

end Dynodoc.Transparency
