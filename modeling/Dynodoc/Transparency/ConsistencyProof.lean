import Dynodoc.Transparency.MemoryTree
import Dynodoc.Transparency.Siblings

/-! Consistency proofs. The prover descends from the root of the larger tree to the last
complete subtree of the smaller one; what it collects on the way is what the verifier uses
up. -/
namespace Dynodoc.Transparency
open List Nat

variable {Hash : Type}

section Prover

variable (H : Hasher Hash)

/-- The loop over the range of `n` leaves from `lo` on, of which the smaller tree has `m`;
`complete` while the range starts with the tree. `m` is neither 0 nor above `n`, so a range
that is not all of the smaller tree has two leaves. -/
def consistencyWalk (source : HashSource Hash) (lo n m : Nat) (complete : Bool)
    (proof : List Hash) : Except Error (List Hash) :=
  if m = n then
    if complete then .ok proof
    else do
      let whole ← rangeHash H source lo n
      return proof ++ [whole]
  else if n < 2 then .error (.missingNode 0 lo)
  else
    let k := split n
    if m ≤ k then do
      let right ← rangeHash H source (lo + k) (n - k)
      consistencyWalk source lo k m complete (proof ++ [right])
    else do
      let left ← rangeHash H source lo k
      consistencyWalk source (lo + k) (n - k) (m - k) false (proof ++ [left])
termination_by n
decreasing_by
  · exact split_lt (by omega)
  · have positive := split_pos n
    omega

/-- Proof that the tree of the first `first` leaves is a prefix of the tree of the first
`second`. -/
def consistencyProof (source : HashSource Hash) (first second : Nat) :
    Except Error (List Hash) := do
  checkSize source second
  if first > second then .error (.sizeOutOfRange first second)
  if first = 0 ∨ first = second then return []
  let proof ← consistencyWalk H source 0 second first true []
  return proof.reverse

end Prover

section Path

variable {H : Hasher Hash} {source : HashSource Hash} {stored : List Hash} {first second : Nat}

/-- The smaller tree fills no position above its last complete subtree. -/
theorem not_aligned {low place : Nat} (full : first = (place + 1) * 2 ^ low)
    (even : place % 2 = 0) (height count : Nat) : first ≠ count * 2 ^ (low + height + 1) := by
  intro aligned
  have odd : place + 1 = 2 * (count * 2 ^ height) := by
    apply Nat.eq_of_mul_eq_mul_right (Nat.two_pow_pos low)
    rw [← full, aligned]
    ring
  omega

/-- The prover's way down from a position above the last complete subtree of the smaller
tree, which is number `place` of level `low`. The subtree itself is left out if the way
never turns right. -/
theorem consistencyWalk_eq (stores : source.Stores H stored) (inside : second ≤ stored.length)
    (below : first < second) {low place : Nat} (full : first = (place + 1) * 2 ^ low)
    (even : place % 2 = 0) {height index : Nat}
    (above : (first - 1) / 2 ^ (low + height) = index) (complete : Bool) (proof : List Hash) :
    consistencyWalk H source (index * 2 ^ (low + height)) (width second (low + height) index)
      (first - index * 2 ^ (low + height)) complete proof =
      .ok (proof ++ ((if complete ∧ first - index * 2 ^ (low + height) = 2 ^ low then []
        else [nodeAt H (stored.take second) low place]) ++
          siblings H (stored.take second) height low place).reverse) := by
  have len : (stored.take second).length = second := by
    rw [length_take]
    omega
  have ends : first = place * 2 ^ low + 2 ^ low := by rw [full, Nat.succ_mul]
  have unit : 0 < 2 ^ low := Nat.two_pow_pos low
  have last : (first - 1) / 2 ^ low = place := div_of_full (by omega)
  induction height generalizing index complete proof with
  | zero =>
    have here : index = place := by rw [← above, add_zero, last]
    have own : first - place * 2 ^ low = 2 ^ low := by omega
    have whole : width second low place = 2 ^ low := by
      rw [width]
      omega
    have range := @rangeHash_nodeAt _ second H source stored stores inside low place (by omega)
    rw [whole] at range
    rw [here, add_zero, own, whole, siblings, consistencyWalk, range]
    cases complete <;> simp [Bind.bind, Except.bind, pure, Except.pure]
  | succ height ih =>
    have positive : 0 < 2 ^ (low + height) := Nat.two_pow_pos (low + height)
    have start : index * 2 ^ (low + height + 1) = 2 * index * 2 ^ (low + height) := by ring
    have middle : 2 * index * 2 ^ (low + height) + 2 ^ (low + height) =
        (2 * index + 1) * 2 ^ (low + height) := by ring
    have climbed : (first - 1) / 2 ^ (low + height) = place / 2 ^ height := by
      rw [Nat.pow_add, ← Nat.div_div_eq_div_mul, last]
    rw [← Nat.add_assoc] at above ⊢
    rw [siblings_snoc, start, ← climbed]
    by_cases right : (2 * index + 1) * 2 ^ (low + height) < second
    · have parts := divided right
      have several := parts.several
      have right' : (2 * index + 1) * 2 ^ (low + height) < (stored.take second).length := by
        rwa [len]
      have part : first - 2 * index * 2 ^ (low + height) ≠ width second (low + height + 1) index := by
        intro whole
        rw [width] at whole
        apply not_aligned full even height (index + 1)
        rw [succ_mul]
        omega
      rw [consistencyWalk, if_neg part, if_neg (by omega)]
      simp only [parts.cut, parts.right, middle]
      rcases child_cases above with ⟨child, before⟩ | ⟨child, after⟩
      · rw [if_pos (by omega), rangeHash_nodeAt stores inside right, child,
          sibling_left (by omega) right']
        have below := ih child complete
          (proof ++ [nodeAt H (stored.take second) (low + height) (2 * index + 1)])
        rw [parts.left] at below
        simpa [Bind.bind, Except.bind] using below
      · have left := @rangeHash_nodeAt _ second H source stored stores inside (low + height)
          (2 * index) (by omega)
        rw [parts.left] at left
        rw [if_neg (by omega), left, child, sibling_right (by omega) right', Nat.sub_sub, middle]
        have below := ih child false
          (proof ++ [nodeAt H (stored.take second) (low + height) (2 * index)])
        have turned : ¬ (complete ∧ first - 2 * index * 2 ^ (low + height) = 2 ^ low) := by
          have wide : 2 ^ low ≤ 2 ^ (low + height) := Nat.pow_le_pow_right (by decide) (by omega)
          omega
        rw [if_neg turned]
        simpa [Bind.bind, Except.bind] using below
    · -- The position has no right child, so its range is the range of its left child.
      have child : (first - 1) / 2 ^ (low + height) = 2 * index := by
        rcases child_cases above with ⟨child, -⟩ | ⟨-, after⟩
        · exact child
        · omega
      have none : sibling H (stored.take second) (low + height) (2 * index) = [] :=
        sibling_none (by omega) (by rw [len]; omega)
      rw [width_single (Nat.not_lt.1 right), ih child, child, none, append_nil]

theorem low_le {low place : Nat} (full : first = (place + 1) * 2 ^ low) (small : first ≤ 2 ^ 64) :
    low ≤ 64 := by
  have wide : 2 ^ low ≤ first := by
    rw [full]
    exact Nat.le_mul_of_pos_left _ (Nat.succ_pos place)
  by_contra high
  have pow : 2 ^ 65 ≤ 2 ^ low := Nat.pow_le_pow_right (by decide) (by omega)
  omega

variable (H) in
/-- The proof for a smaller tree whose last complete subtree is number `place` of level
`low`. -/
def prefixPath (leaves : List Hash) (first low place : Nat) : List Hash :=
  (if first = 2 ^ low then [] else [nodeAt H leaves low place]) ++
    siblings H leaves (64 - low) low place

theorem prefixPath_length (leaves : List Hash) (first low place : Nat) :
    (prefixPath H leaves first low place).length ≤ maxProofLen := by
  have count := @siblings_length _ H leaves (64 - low) low place
  have start : (if first = 2 ^ low then [] else [nodeAt H leaves low place]).length ≤ 1 := by
    split <;> simp
  rw [prefixPath, length_append, maxProofLen]
  omega

theorem consistencyProof_eq (stores : source.Stores H stored) (inside : second ≤ stored.length)
    (small : second ≤ 2 ^ 64) (positive : 0 < first) (below : first < second) {low place : Nat}
    (full : first = (place + 1) * 2 ^ low) (even : place % 2 = 0) :
    consistencyProof H source first second =
      .ok (prefixPath H (stored.take second) first low place) := by
  have top : low + (64 - low) = 64 := Nat.add_sub_cancel' (low_le full (by omega))
  have all : width second 64 0 = second := by
    rw [width, Nat.zero_mul, Nat.sub_zero, Nat.min_eq_right small]
  have walk := @consistencyWalk_eq _ H source stored first second stores inside below low place full
    even (64 - low) 0 (by rw [top]; exact Nat.div_eq_of_lt (by omega)) true []
  rw [top, all, Nat.zero_mul, Nat.sub_zero] at walk
  have room : ¬ second > source.size := by
    rw [stores.size]
    omega
  have ordered : ¬ first > second := by omega
  have inner : ¬ (first = 0 ∨ first = second) := by omega
  simp [consistencyProof, checkSize, room, ordered, inner, walk, prefixPath, Bind.bind, Except.bind,
    pure, Except.pure]

end Path

section Complete

variable {H : Hasher Hash}

theorem skipOdd_even (fnode snode : Nat) : (skipOdd fnode snode).1 % 2 = 0 := by
  induction fnode, snode using skipOdd.induct with
  | case1 fnode snode odd ih => rwa [skipOdd, if_pos odd]
  | case2 fnode snode even =>
    rw [skipOdd, if_neg even]
    omega

theorem isPowerOfTwo_iff {size low place : Nat} (full : size = (place + 1) * 2 ^ low)
    (even : place % 2 = 0) : isPowerOfTwo size ↔ size = 2 ^ low := by
  have wide : 2 ^ low ≤ size := by
    rw [full]
    exact Nat.le_mul_of_pos_left _ (Nat.succ_pos place)
  constructor
  · intro power
    simp only [isPowerOfTwo, Bool.and_eq_true, beq_iff_eq] at power
    rcases lt_or_ge low (log2 size) with above | below
    · have exact : low + (log2 size - low - 1) + 1 = log2 size := by omega
      refine absurd ?_ (not_aligned full even (log2 size - low - 1) 1)
      rw [exact, power.2, Nat.one_mul]
    · have narrow : 2 ^ Nat.log2 size ≤ 2 ^ low := Nat.pow_le_pow_right (by decide) below
      omega
  · rintro rfl
    simp [isPowerOfTwo]

section Inner

variable {leaves : List Hash} {first low place last : Nat} (hf : Last first low place)
  (full : first = (place + 1) * 2 ^ low) (even : place % 2 = 0)

include hf full even in
/-- The verifier puts the first root in front where the prover has left out the subtree. -/
theorem path_eq : (if isPowerOfTwo first then [treeHash H (leaves.take first)] else []) ++
    prefixPath H leaves first low place =
      nodeAt H leaves low place :: siblings H leaves (64 - low) low place := by
  rw [prefixPath]
  by_cases power : first = 2 ^ low
  · have zero : place = 0 := hf.eq_zero (le_of_eq power)
    have shared := nodeAt_take H leaves first low place (le_of_eq full.symm)
    have whole : nodeAt H leaves low place = treeHash H (leaves.take first) := by
      rw [← shared, zero, nodeAt_root H _ low (by rw [length_take]; omega)]
    rw [if_pos ((isPowerOfTwo_iff full even).2 power), if_pos power, whole]
    rfl
  · rw [if_neg (mt (isPowerOfTwo_iff full even).1 power), if_neg power]
    rfl

include hf full even in
theorem verifyConsistency_inner [DecidableEq Hash] (positive : 0 < first)
    (below : first < leaves.length) (small : leaves.length ≤ 2 ^ 64)
    (up : skipOdd (first - 1) (leaves.length - 1) = (place, last))
    (hs : Last leaves.length low last) :
    verifyConsistency H first leaves.length (treeHash H (leaves.take first)) (treeHash H leaves)
      (prefixPath H leaves first low place) = .ok () := by
  have short := @prefixPath_length _ H leaves first low place
  have top : low + (64 - low) = 64 := Nat.add_sub_cancel' (low_le full (by omega))
  have shared := nodeAt_take H leaves first low place (Nat.le_of_eq full.symm)
  obtain ⟨final, walked, arrived⟩ := @run_complete _ H leaves first (by omega) (64 - low) low
    ⟨place, last, nodeAt H leaves low place, nodeAt H leaves low place⟩ hf hs (by rwa [top])
    shared.symm rfl
  rw [verifyConsistency, if_neg (by omega), if_neg (by omega), if_neg (by omega)]
  simp only [path_eq hf full even, up, walked, arrived.ended, arrived.firstRoot,
    arrived.secondRoot, and_self, if_true]

end Inner

/-- What the prover makes, the verifier accepts. -/
theorem consistency_complete [DecidableEq Hash] (source : HashSource Hash) (leaves : List Hash)
    (stores : source.Stores H leaves) (small : leaves.length < 2 ^ 64) (first second : Nat)
    (ordered : first ≤ second) (inside : second ≤ leaves.length) :
    ∃ proof firstRoot secondRoot, consistencyProof H source first second = .ok proof ∧
      treeRoot H source first = .ok firstRoot ∧ treeRoot H source second = .ok secondRoot ∧
      verifyConsistency H first second firstRoot secondRoot proof = .ok () ∧
      proof.length ≤ maxProofLen := by
  have firstRoot := treeRoot_eq H stores first (by omega)
  have secondRoot := treeRoot_eq H stores second inside
  by_cases edge : first = 0 ∨ first = second
  · have room : ¬ second > source.size := by
      rw [stores.size]
      omega
    refine ⟨[], _, _, ?_, firstRoot, secondRoot, ?_, by simp⟩
    · simp [consistencyProof, checkSize, room, not_lt.2 ordered, edge, Bind.bind, Except.bind,
        pure, Except.pure]
    · by_cases same : first = second
      · simp [verifyConsistency, same]
      · obtain rfl : first = 0 := edge.resolve_right same
        simp [verifyConsistency, same, treeHash]
  · have len : (leaves.take second).length = second := by
      rw [length_take]
      omega
    obtain ⟨low, hf, hs, full⟩ := skipOdd_last (first - 1) (second - 1) (last_zero (by omega))
      (last_zero (by omega)) (by simp; omega)
    have even := skipOdd_even (first - 1) (second - 1)
    have made := consistencyProof_eq stores inside (by omega) (by omega) (by omega) full even
    have accepted := @verifyConsistency_inner _ H (leaves.take second) first low _ _ hf full even _
      (by omega) (by omega) (by omega) (by rw [len]) (by rwa [len])
    rw [len, take_take, min_eq_left ordered] at accepted
    exact ⟨_, _, _, made, firstRoot, secondRoot, accepted, prefixPath_length ..⟩

theorem symbolic_consistency_complete :
    let source := (MemoryTree.ofLeaves symbolic [.leaf 0, .leaf 1, .leaf 2, .leaf 3, .leaf 4]).source
    ∃ proof firstRoot secondRoot, consistencyProof symbolic source 3 5 = .ok proof ∧
      treeRoot symbolic source 3 = .ok firstRoot ∧ treeRoot symbolic source 5 = .ok secondRoot ∧
      verifyConsistency symbolic 3 5 firstRoot secondRoot proof = .ok () ∧
      proof.length ≤ maxProofLen :=
  consistency_complete _ _ (MemoryTree.ofLeaves_stores symbolic _) (by decide) 3 5 (by decide)
    (by decide)

end Complete

end Dynodoc.Transparency
