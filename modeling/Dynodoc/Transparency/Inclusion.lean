import Dynodoc.Lib.Loop
import Dynodoc.Transparency.MemoryTree
import Dynodoc.Transparency.Siblings

/-! Inclusion proofs. The prover descends from the root to a leaf and collects the subtrees
beside its way; the verifier climbs from the leaf and never sees the tree. -/
namespace Dynodoc.Transparency
open Walk Nat

variable {Hash : Type} {index : Nat}

section Prover

variable (H : Hasher Hash)

/-- `while n > 1`: the range of `n` leaves from `lo` on, in which the leaf is number `m`. -/
def inclusionWalk (source : HashSource Hash) (lo n m : Nat) (path : List Hash) :
    Except Error (List Hash) :=
  if n ≤ 1 then .ok path
  else
    let k := split n
    if m < k then do
      let right ← rangeHash H source (lo + k) (n - k)
      inclusionWalk source lo k m (path ++ [right])
    else do
      let left ← rangeHash H source lo k
      inclusionWalk source (lo + k) (n - k) (m - k) (path ++ [left])
termination_by n
decreasing_by
  · exact split_lt (by omega)
  · have positive := split_pos n
    omega

/-- Audit path of a leaf in the tree of the first `size` leaves, leaf level first. -/
def inclusionProof (source : HashSource Hash) (index size : Nat) : Except Error (List Hash) := do
  checkSize source size
  if index ≥ size then .error (.indexOutOfRange index size)
  let path ← inclusionWalk H source 0 size index []
  return path.reverse

end Prover

section Verifier

variable (H : Hasher Hash)

structure Climb (Hash : Type) where
  fnode : Nat
  snode : Nat
  hash : Hash

def Climb.step (c : Climb Hash) (sibling : Hash) : Except Error (Climb Hash) :=
  if c.snode = 0 then .error .badInclusionProof
  else if c.fnode % 2 = 1 ∨ c.fnode = c.snode then
    let up := skipEven c.fnode c.snode
    .ok ⟨up.1 / 2, up.2 / 2, H.nodeHash sibling c.hash⟩
  else .ok ⟨c.fnode / 2, c.snode / 2, H.nodeHash c.hash sibling⟩

def Climb.run (c : Climb Hash) : List Hash → Except Error (Climb Hash)
  | [] => .ok c
  | sibling :: rest => (c.step H sibling).bind fun next => next.run rest

def verifyInclusion [DecidableEq Hash] (leaf : Hash) (index size : Nat) (proof : List Hash)
    (root : Hash) : Except Error Unit :=
  if index ≥ size then .error (.indexOutOfRange index size)
  else if proof.length > maxProofLen then .error .badInclusionProof
  else
    match Climb.run H ⟨index, size - 1, leaf⟩ proof with
    | .error e => .error e
    | .ok c => if c.snode = 0 ∧ c.hash = root then .ok () else .error .badInclusionProof

end Verifier

section Path

variable {H : Hasher Hash} {source : HashSource Hash} {stored : List Hash} {size : Nat}

theorem inclusionWalk_eq (stores : source.Stores H stored) (inside : size ≤ stored.length)
    {leaf : Nat} (below : leaf < size) {level : Nat} (above : leaf / 2 ^ level = index)
    (path : List Hash) : inclusionWalk H source (index * 2 ^ level) (width size level index)
      (leaf - index * 2 ^ level) path =
      .ok (path ++ (siblings H (stored.take size) level 0 leaf).reverse) := by
  have len : (stored.take size).length = size := by
    rw [List.length_take]
    omega
  induction level generalizing index path with
  | zero =>
    have one : width size 0 index ≤ 1 := min_le_left _ _
    rw [inclusionWalk, if_pos one]
    simp [siblings]
  | succ level ih =>
    have positive : 0 < 2 ^ level := Nat.two_pow_pos level
    have start : index * 2 ^ (level + 1) = 2 * index * 2 ^ level := by ring
    have middle : 2 * index * 2 ^ level + 2 ^ level = (2 * index + 1) * 2 ^ level := by ring
    rw [siblings_snoc, Nat.zero_add, start]
    by_cases right : (2 * index + 1) * 2 ^ level < size
    · have parts := divided right
      have several := parts.several
      have right' : (2 * index + 1) * 2 ^ level < (stored.take size).length := by rwa [len]
      rw [inclusionWalk, if_neg (by omega)]
      simp only [parts.cut, parts.right, middle]
      rcases child_cases above with ⟨child, before⟩ | ⟨child, after⟩
      · rw [if_pos (by omega), rangeHash_nodeAt stores inside right, child,
          sibling_left (by omega) right']
        have below := ih child (path ++ [nodeAt H (stored.take size) level (2 * index + 1)])
        rw [parts.left] at below
        simpa [Bind.bind, Except.bind] using below
      · have left := @rangeHash_nodeAt _ size H source stored stores inside level (2 * index)
          (by omega)
        rw [parts.left] at left
        rw [if_neg (by omega), left, child, sibling_right (by omega) right', Nat.sub_sub, middle]
        have below := ih child (path ++ [nodeAt H (stored.take size) level (2 * index)])
        simpa [Bind.bind, Except.bind] using below
    · -- The position has no right child, so its range is the range of its left child.
      have child : leaf / 2 ^ level = 2 * index := by
        rcases child_cases above with ⟨child, -⟩ | ⟨-, after⟩
        · exact child
        · omega
      have none : sibling H (stored.take size) level (2 * index) = [] :=
        sibling_none (by omega) (by rw [len]; omega)
      rw [width_single (Nat.not_lt.1 right), ih child, child, none]
      simp

theorem inclusionProof_eq (stores : source.Stores H stored) (inside : size ≤ stored.length)
    (small : size ≤ 2 ^ 64) (below : index < size) :
    inclusionProof H source index size = .ok (siblings H (stored.take size) 64 0 index) := by
  have all : width size 64 0 = size := by
    rw [width, Nat.zero_mul, Nat.sub_zero, Nat.min_eq_right small]
  have walk := inclusionWalk_eq stores inside below
    (Nat.div_eq_of_lt (Nat.lt_of_lt_of_le below small)) []
  rw [all, Nat.zero_mul, Nat.sub_zero] at walk
  have room : ¬ size > source.size := by
    rw [stores.size]
    omega
  simp [inclusionProof, checkSize, room, below, walk, Bind.bind, Except.bind, pure, Except.pure]

end Path

section Sound

variable {H : Hasher Hash}

def Walk.climb (w : Walk Hash) : Climb Hash := ⟨w.fnode, w.snode, w.secondHash⟩

/-- Both verifiers climb in the same way; the one for consistency carries a second hash. -/
theorem climb_run (fnode snode : Nat) (first hash : Hash) (proof : List Hash) :
    (Climb.run H ⟨fnode, snode, hash⟩ proof).toOption =
      (run H ⟨fnode, snode, first, hash⟩ proof).toOption.map climb := by
  induction proof generalizing fnode snode first hash with
  | nil => rfl
  | cons s rest ih =>
    simp only [Climb.run, run, Climb.step, step]
    by_cases top : snode = 0
    · simp only [if_pos top]
      rfl
    · simp only [if_neg top]
      by_cases left : fnode % 2 = 1 ∨ fnode = snode
      · simp only [if_pos left]
        exact ih ..
      · simp only [if_neg left]
        exact ih ..

variable [DecidableEq Hash]

theorem verifyInclusion_eq_ok {leaf root : Hash} {size : Nat} {proof : List Hash}
    (below : index < size) :
    verifyInclusion H leaf index size proof root = .ok () ↔ proof.length ≤ maxProofLen ∧
      ∃ w, run H ⟨index, size - 1, leaf, leaf⟩ proof = .ok w ∧ w.snode = 0 ∧
        w.secondHash = root := by
  have same := @climb_run _ H index (size - 1) leaf leaf proof
  rw [verifyInclusion, if_neg (not_le.2 below)]
  by_cases long : proof.length > maxProofLen
  · simp [long]
  · rw [if_neg long]
    cases walked : run H ⟨index, size - 1, leaf, leaf⟩ proof with
    | error e =>
      rw [walked] at same
      cases climbed : Climb.run H ⟨index, size - 1, leaf⟩ proof with
      | error e => simp
      | ok c => simp [climbed, Except.toOption] at same
    | ok w =>
      rw [walked] at same
      have climbed : Climb.run H ⟨index, size - 1, leaf⟩ proof = .ok w.climb :=
        Loop.toOption_eq_some.1 same
      simp [climbed, climb, not_lt.1 long]

/-- Every leaf has exactly one inclusion proof, the one that the prover makes, and it proves
that leaf alone. -/
theorem inclusion_complete_and_sound (source : HashSource Hash) (leaves : List Hash)
    (stores : source.Stores H leaves) (small : leaves.length < 2 ^ 64) (index : Nat)
    (below : index < leaves.length) :
    ∃ proof, inclusionProof H source index leaves.length = .ok proof ∧
      verifyInclusion H leaves[index] index leaves.length proof (treeHash H leaves) = .ok () ∧
      ((∀ a b c d, H.nodeHash a b = H.nodeHash c d → a = c ∧ b = d) →
        ∀ leaf forged,
          verifyInclusion H leaf index leaves.length forged (treeHash H leaves) = .ok () →
          leaf = leaves[index] ∧ forged = proof) := by
  have made := inclusionProof_eq stores (le_refl _) (le_of_lt small) below
  rw [List.take_length] at made
  have last := last_zero (zero_lt_of_lt below)
  have short := @siblings_length _ H leaves 64 0 index
  have own := nodeAt_leaf H below
  refine ⟨_, made, ?_, fun injective leaf forged accepted => ?_⟩
  · have shared := nodeAt_take H leaves (index + 1) 0 index (by simp)
    obtain ⟨final, walked, arrived⟩ := @run_complete _ H leaves (index + 1) below 64 0
      ⟨index, leaves.length - 1, leaves[index], leaves[index]⟩ (last_zero (succ_pos index)) last
      (le_of_lt small) (own.symm.trans shared.symm) own.symm
    exact (verifyInclusion_eq_ok below).2 ⟨by simp only [maxProofLen]; omega, final, walked,
      arrived.ended, arrived.secondRoot⟩
  · obtain ⟨-, final, walked, ended, root⟩ := (verifyInclusion_eq_ok below).1 accepted
    obtain ⟨here, path⟩ := @run_unique _ H forged injective leaves 64 0
      ⟨index, leaves.length - 1, leaf, leaf⟩ final (le_sub_one_of_lt below) last
      (le_of_lt small) walked ended root
    exact ⟨here.trans own, path⟩

end Sound

theorem symbolic_inclusion_unique :
    let leaves := [Digest.leaf 0, .leaf 1, .leaf 2]
    ∃ proof, inclusionProof symbolic (MemoryTree.ofLeaves symbolic leaves).source 2 3 = .ok proof ∧
      verifyInclusion symbolic (.leaf 2) 2 3 proof (treeHash symbolic leaves) = .ok () ∧
      ∀ leaf forged, verifyInclusion symbolic leaf 2 3 forged (treeHash symbolic leaves) = .ok () →
        leaf = .leaf 2 ∧ forged = proof := by
  intro leaves
  obtain ⟨proof, made, accepted, only⟩ := inclusion_complete_and_sound
    (MemoryTree.ofLeaves symbolic leaves).source leaves (MemoryTree.ofLeaves_stores symbolic leaves)
    (by decide) 2 (by decide)
  exact ⟨proof, made, accepted, only fun _ _ _ _ same => Digest.node.inj same⟩

end Dynodoc.Transparency
