import Dynodoc.Transparency.Merkle

/-! The consistency verifier and its soundness. The verifier sees two sizes, two
roots and a list of hashes; it never sees a leaf. Its two counters are the
positions, level by level, of the last leaf of either tree. -/
namespace Dynodoc.Transparency
open Nat Except List

variable {level size : Nat} {Hash : Type}

/-- `while fnode & 1 == 1`: leave the levels at which the last leaf of the
first tree is a right child. -/
def skipOdd (fnode snode : Nat) : Nat × Nat :=
  if fnode % 2 = 1 then skipOdd (fnode / 2) (snode / 2) else (fnode, snode)
termination_by fnode
decreasing_by omega

/-- `while fnode & 1 == 0 && fnode != 0`: leave the levels at which the node has
no sibling. -/
def skipEven (fnode snode : Nat) : Nat × Nat :=
  if fnode % 2 = 0 ∧ fnode ≠ 0 then skipEven (fnode / 2) (snode / 2) else (fnode, snode)
termination_by fnode
decreasing_by omega

section Verifier

variable (H : Hasher Hash)

structure Walk (Hash : Type) where
  fnode : Nat
  snode : Nat
  firstHash : Hash
  secondHash : Hash

/-- One proof element. A node that is a right child, or the last of its level,
takes a left sibling in both trees; any other node takes a right sibling in the
second tree alone. -/
def Walk.step (w : Walk Hash) (sibling : Hash) : Except Error (Walk Hash) :=
  if w.snode = 0 then .error .badConsistencyProof
  else if w.fnode % 2 = 1 ∨ w.fnode = w.snode then
    let up := skipEven w.fnode w.snode
    .ok {
      fnode := up.1 / 2
      snode := up.2 / 2
      firstHash := H.nodeHash sibling w.firstHash
      secondHash := H.nodeHash sibling w.secondHash }
  else
    .ok {
      fnode := w.fnode / 2
      snode := w.snode / 2
      firstHash := w.firstHash
      secondHash := H.nodeHash w.secondHash sibling }

def Walk.run (w : Walk Hash) : List Hash → Except Error (Walk Hash)
  | [] => .ok w
  | sibling :: rest => (w.step H sibling).bind fun next => next.run rest

def verifyConsistency [DecidableEq Hash] (first second : Nat) (firstRoot secondRoot : Hash)
    (proof : List Hash) : Except Error Unit :=
  if first > second ∨ proof.length > maxProofLen then .error .badConsistencyProof
  else if first = second then
    if proof = [] ∧ firstRoot = secondRoot then .ok () else .error .badConsistencyProof
  else if first = 0 then
    if proof = [] ∧ firstRoot = H.emptyRoot then .ok () else .error .badConsistencyProof
  else
    match (if isPowerOfTwo first then [firstRoot] else []) ++ proof with
    | [] => .error .badConsistencyProof
    | start :: rest =>
      let up := skipOdd (first - 1) (second - 1)
      match Walk.run H ⟨up.1, up.2, start, start⟩ rest with
      | .error e => .error e
      | .ok w =>
        if w.snode = 0 ∧ w.firstHash = firstRoot ∧ w.secondHash = secondRoot then .ok ()
        else .error .badConsistencyProof

end Verifier

/-- `index` is the last position of its level in a tree of `size` leaves. -/
structure Last (size level index : Nat) : Prop where
  starts : index * 2 ^ level < size
  ends : size ≤ (index + 1) * 2 ^ level

theorem last_zero (positive : 0 < size) : Last size 0 (size - 1) :=
  ⟨by omega, by omega⟩

theorem Last.up {index : Nat} (h : Last size level index) : Last size (level + 1) (index / 2) := by
  have before : index / 2 * 2 ^ (level + 1) ≤ index * 2 ^ level := by
    calc index / 2 * 2 ^ (level + 1) = index / 2 * 2 * 2 ^ level := by ring
      _ ≤ index * 2 ^ level := mul_le_mul_right _ (div_mul_le_self index 2)
  have after : (index + 1) * 2 ^ level ≤ (index / 2 + 1) * 2 ^ (level + 1) := by
    calc (index + 1) * 2 ^ level ≤ (index / 2 + 1) * 2 * 2 ^ level :=
          mul_le_mul_right _ (by omega)
      _ = (index / 2 + 1) * 2 ^ (level + 1) := by ring
  exact ⟨lt_of_le_of_lt before h.starts, h.ends.trans after⟩

theorem Last.le {first second i j : Nat} (h : Last first level i) (g : Last second level j)
    (le : first ≤ second) : i ≤ j := by
  have lt : i * 2 ^ level < (j + 1) * 2 ^ level :=
    Nat.lt_of_lt_of_le h.starts (le.trans g.ends)
  exact Nat.lt_succ_iff.mp (Nat.lt_of_mul_lt_mul_right lt)

theorem Last.eq_zero {index : Nat} (h : Last size level index)
    (covers : size ≤ 2 ^ level) : index = 0 := by
  have below : index * 2 ^ level < 1 * 2 ^ level := by
    rw [one_mul]
    exact Nat.lt_of_lt_of_le h.starts covers
  exact Nat.lt_one_iff.1 (Nat.lt_of_mul_lt_mul_right below)

/- A shift of both counters is a move one level up, so the loops of the
verifier keep the counters at the last positions of one level. -/

variable {first second : Nat} (fnode snode : Nat)

/-- Past the odd levels the last position is complete in the first tree. -/
theorem skipOdd_last
    (hf : Last first level fnode) (hs : Last second level snode)
    (complete : first = (fnode + 1) * 2 ^ level) :
    ∃ up, Last first up (skipOdd fnode snode).1 ∧ Last second up (skipOdd fnode snode).2 ∧
      first = ((skipOdd fnode snode).1 + 1) * 2 ^ up := by
  induction fnode, snode using skipOdd.induct generalizing level with
  | case1 fnode snode odd ih =>
    have pair : first = (fnode / 2 + 1) * 2 ^ (level + 1) := by
      have halves : fnode + 1 = (fnode / 2 + 1) * 2 := by omega
      rw [complete, halves]
      ring
    rw [skipOdd, if_pos odd]
    exact ih hf.up hs.up pair
  | case2 fnode snode even =>
    rw [skipOdd, if_neg even]
    exact ⟨level, hf, hs, complete⟩

/-- The even levels skipped end at a right child and keep the node's place. -/
theorem skipEven_last (nonzero : fnode ≠ 0)
    (hf : Last first level fnode) (hs : Last second level snode) :
    ∃ k, Last first (level + k) (skipEven fnode snode).1 ∧
      Last second (level + k) (skipEven fnode snode).2 ∧
      fnode = (skipEven fnode snode).1 * 2 ^ k ∧ (skipEven fnode snode).1 % 2 = 1 ∧
      (fnode % 2 = 1 → k = 0) := by
  induction fnode, snode using skipEven.induct generalizing level with
  | case1 fnode snode even ih =>
    obtain ⟨k, first_up, second_up, place, odd, _⟩ := ih (by omega) hf.up hs.up
    rw [skipEven, if_pos even]
    refine ⟨k + 1, ?_, ?_, ?_, odd, by omega⟩
    · rwa [add_right_comm] at first_up
    · rwa [add_right_comm] at second_up
    · calc fnode = fnode / 2 * 2 := by omega
        _ = (skipEven (fnode / 2) (snode / 2)).1 * 2 ^ k * 2 := by rw [← place]
        _ = (skipEven (fnode / 2) (snode / 2)).1 * 2 ^ (k + 1) := by ring
  | case2 fnode snode stop =>
    rw [skipEven, if_neg stop]
    exact ⟨0, hf, hs, by simp, by omega, fun _ => rfl⟩

section Soundness

variable (H : Hasher Hash)

/-- The last node of a level is handed up unchanged while it is a left child. -/
theorem nodeAt_last (leaves : List Hash) (level k index : Nat)
    (short : leaves.length ≤ (index * 2 ^ k + 1) * 2 ^ level) :
    nodeAt H leaves (level + k) index = nodeAt H leaves level (index * 2 ^ k) := by
  induction k generalizing index with
  | zero => simp
  | succ k ih =>
    have place : 2 * index * 2 ^ k = index * 2 ^ (k + 1) := by ring
    have none : leaves.length ≤ (2 * index + 1) * 2 ^ (level + k) := by
      have one : 1 ≤ 2 ^ k := Nat.one_le_two_pow
      calc leaves.length ≤ (2 * index * 2 ^ k + 1) * 2 ^ level := by rwa [place]
        _ ≤ (2 * index * 2 ^ k + 2 ^ k) * 2 ^ level :=
          Nat.mul_le_mul_right _ (Nat.add_le_add_left one _)
        _ = (2 * index + 1) * 2 ^ (level + k) := by ring
    rw [← Nat.add_assoc, nodeAt_single H leaves (level + k) index none,
      ih (2 * index) (by rwa [place]), place]

variable (injective : ∀ a b c d, H.nodeHash a b = H.nodeHash c d → a = c ∧ b = d)

include injective in
/-- One accepted proof element: if the next second hash is the tree's own node,
so was this one, and the sibling was the tree's; so the first hash, when it is
the prefix's node here, is the prefix's node there. -/
theorem step_sound (leaves : List Hash) (first level : Nat) (below : first < leaves.length)
    (w next : Walk Hash) (hf : Last first level w.fnode)
    (hs : Last leaves.length level w.snode) (accepted : w.step H sibling = .ok next) :
    ∃ up, Last first up next.fnode ∧ Last leaves.length up next.snode ∧
      (next.secondHash = nodeAt H leaves up next.fnode →
        w.secondHash = nodeAt H leaves level w.fnode ∧
        (w.firstHash = nodeAt H (leaves.take first) level w.fnode →
          next.firstHash = nodeAt H (leaves.take first) up next.fnode)) := by
  have len : (leaves.take first).length = first := by
    rw [length_take]
    omega
  unfold Walk.step at accepted
  split at accepted
  · contradiction
  split at accepted
  · rename_i left
    cases ok.inj accepted
    have fnonzero : w.fnode ≠ 0 := by omega
    obtain ⟨k, first_up, second_up, place, odd, direct⟩ :=
      skipEven_last w.fnode w.snode fnonzero hf hs
    generalize (skipEven w.fnode w.snode).1 = j at *
    have half : 2 * (j / 2) + 1 = j := by omega
    refine ⟨level + k + 1, first_up.up, second_up.up, ?_⟩
    intro second_next
    have second_here : nodeAt H leaves (level + k) j = nodeAt H leaves level w.fnode := by
      rcases left with right_child | last
      · simp [direct right_child, place]
      · rw [nodeAt_last H leaves level k j (by rw [← place, last]; exact hs.ends), ← place]
    have first_here : nodeAt H (leaves.take first) (level + k) j =
        nodeAt H (leaves.take first) level w.fnode := by
      rw [nodeAt_last H _ level k j (by rw [← place, len]; exact hf.ends), ← place]
    have second_pair := nodeAt_pair H leaves (level + k) (j / 2)
      (by rw [half]; exact first_up.starts.trans below)
    have first_pair := nodeAt_pair H (leaves.take first) (level + k) (j / 2)
      (by rw [half, len]; exact first_up.starts)
    have shared := nodeAt_take H leaves first (level + k) (2 * (j / 2))
      (by rw [half]; exact le_of_lt first_up.starts)
    rw [half] at second_pair first_pair
    obtain ⟨own, here⟩ := injective _ _ _ _ (second_next.trans second_pair)
    refine ⟨here.trans second_here, ?_⟩
    intro first_hash
    rw [first_pair, shared, ← own, first_here, ← first_hash]
  · rename_i right
    cases ok.inj accepted
    have le := hf.le hs (le_of_lt below)
    have half : 2 * (w.fnode / 2) = w.fnode := by omega
    refine ⟨level + 1, hf.up, hs.up, ?_⟩
    intro second_next
    have sibling_starts : (w.fnode + 1) * 2 ^ level < leaves.length :=
      lt_of_le_of_lt (mul_le_mul_right _ (by omega)) hs.starts
    have second_pair := nodeAt_pair H leaves level (w.fnode / 2) (by rwa [half])
    have first_single := nodeAt_single H (leaves.take first) level (w.fnode / 2)
      (by rw [half, len]; exact hf.ends)
    rw [half] at second_pair first_single
    obtain ⟨here, _⟩ := injective _ _ _ _ (second_next.trans second_pair)
    exact ⟨here, fun first_hash => first_hash.trans first_single.symm⟩

include injective in
/-- A whole accepted walk, read backwards from the second root. -/
theorem run_sound (leaves : List Hash) (first : Nat)
    (below : first < leaves.length) (proof : List Hash) (level : Nat) (w final : Walk Hash)
    (hf : Last first level w.fnode) (hs : Last leaves.length level w.snode)
    (accepted : w.run H proof = .ok final) (ended : final.snode = 0)
    (root : final.secondHash = treeHash H leaves) :
    w.secondHash = nodeAt H leaves level w.fnode ∧
      (w.firstHash = nodeAt H (leaves.take first) level w.fnode →
        final.firstHash = treeHash H (leaves.take first)) := by
  induction proof generalizing level w with
  | nil =>
    have same : w = final := ok.inj accepted
    subst same
    have zero : w.fnode = 0 := by
      have le := hf.le hs (le_of_lt below)
      omega
    have covers := hs.ends
    have prefix_covers := hf.ends
    rw [ended] at covers
    rw [zero] at prefix_covers
    rw [zero, nodeAt_root H leaves level (by simpa using covers),
      nodeAt_root H (leaves.take first) level
        (by rw [length_take]; exact (min_le_left _ _).trans (by simpa using prefix_covers))]
    exact ⟨root, id⟩
  | cons sibling rest ih =>
    simp only [Walk.run] at accepted
    cases step : w.step H sibling with
    | error e => simp [step, Except.bind] at accepted
    | ok next =>
      rw [step] at accepted
      obtain ⟨up, first_up, second_up, back⟩ :=
        step_sound H injective leaves first level below w next hf hs step
      obtain ⟨second_next, first_next⟩ := ih up next first_up second_up accepted
      obtain ⟨second_here, carry⟩ := back second_next
      exact ⟨second_here, fun first_hash => first_next (carry first_hash)⟩

include injective in
/-- The root a consistency proof accepts for a smaller tree is the root of the
prefix itself. -/
theorem accepted_first_root [DecidableEq Hash] (leaves : List Hash) (first : Nat)
    (firstRoot : Hash) (proof : List Hash) (positive : 0 < first) (below : first < leaves.length)
    (accepted : verifyConsistency H first leaves.length firstRoot (treeHash H leaves) proof =
      .ok ()) :
    firstRoot = treeHash H (leaves.take first) := by
  unfold verifyConsistency at accepted
  split at accepted
  · contradiction
  rw [if_neg (by omega), if_neg (by omega)] at accepted
  split at accepted
  · contradiction
  rename_i start rest path
  obtain ⟨level, hf, hs, complete⟩ := skipOdd_last (first - 1) (leaves.length - 1)
    (last_zero positive) (last_zero (by omega)) (by simp; omega)
  dsimp only at accepted
  split at accepted
  · contradiction
  rename_i final walked
  split at accepted
  · rename_i checked
    obtain ⟨ended, first_root, second_root⟩ := checked
    obtain ⟨second_start, finish⟩ := run_sound H injective leaves first below rest
      level _ final hf hs walked ended second_root
    have shared := nodeAt_take H leaves first level _ (le_of_eq complete.symm)
    rw [← first_root]
    exact finish (second_start.trans shared.symm)
  · contradiction

include injective in
/-- Soundness of the verifier against every proof: two roots it relates are the
roots of a sequence and of its prefix. Neither a second preimage across leaves
and nodes nor one of the empty root is needed, since both sizes fix the shapes. -/
theorem verifyConsistency_sound [DecidableEq Hash] (first second : Nat)
    (firstRoot secondRoot : Hash) (proof prior leaves : List Hash)
    (second_size : leaves.length = second) (second_root : treeHash H leaves = secondRoot)
    (first_size : prior.length = first) (first_root : treeHash H prior = firstRoot)
    (accepted : verifyConsistency H first second firstRoot secondRoot proof = .ok ()) :
    prior = leaves.take first := by
  subst second_size second_root first_size first_root
  rcases Nat.lt_trichotomy prior.length leaves.length with below | same | above
  · rcases Nat.eq_zero_or_pos prior.length with none | positive
    · rw [none, take_zero]
      exact eq_nil_of_length_eq_zero none
    · have root := accepted_first_root H injective leaves prior.length _ proof positive below
        accepted
      exact treeHash_injective H injective _ _ (by simp; omega) root
  · have roots : treeHash H prior = treeHash H leaves := by
      unfold verifyConsistency at accepted
      split at accepted
      · contradiction
      split at accepted
      · rename_i checked
        exact checked.2
      · contradiction
    rw [same, take_length]
    exact treeHash_injective H injective _ _ same roots
  · simp [verifyConsistency, above] at accepted

end Soundness

/-- Hashes as the terms that built them: an injective node hash. -/
inductive Digest where
  | empty
  | leaf (entry : Nat)
  | node (left right : Digest)
  deriving DecidableEq, Repr

def symbolic : Hasher Digest := ⟨.node, .empty⟩

theorem symbolic_consistency_sound :
    verifyConsistency symbolic 3 4 (treeHash symbolic [.leaf 0, .leaf 1, .leaf 2])
        (treeHash symbolic [.leaf 0, .leaf 1, .leaf 2, .leaf 3])
        [.leaf 2, .leaf 3, .node (.leaf 0) (.leaf 1)] = .ok () ∧
      [Digest.leaf 0, .leaf 1, .leaf 2] = [Digest.leaf 0, .leaf 1, .leaf 2, .leaf 3].take 3 := by
  have accepted : verifyConsistency symbolic 3 4 (treeHash symbolic [.leaf 0, .leaf 1, .leaf 2])
      (treeHash symbolic [.leaf 0, .leaf 1, .leaf 2, .leaf 3])
      [.leaf 2, .leaf 3, .node (.leaf 0) (.leaf 1)] = .ok () := by
    have one : log2 1 = 0 := rfl
    have three : log2 3 = 1 := rfl
    simp [verifyConsistency, maxProofLen, isPowerOfTwo, skipOdd, skipEven, Walk.run, Walk.step,
      treeHash, split, symbolic, Except.bind, one, three, take]
  have injective : ∀ a b c d : Digest, symbolic.nodeHash a b = symbolic.nodeHash c d →
      a = c ∧ b = d := fun _ _ _ _ h => Digest.node.inj h
  exact ⟨accepted, verifyConsistency_sound symbolic injective 3 4 _ _ _ _ _ rfl rfl rfl rfl
    accepted⟩

end Dynodoc.Transparency
