import Mathlib.Data.Nat.Log
import Mathlib.Data.List.Basic
import Mathlib.Tactic.Ring

/-! RFC 6962 trees over an abstract hash. Hashing is a parameter: the interior
hash combines two hashes, and the empty tree has a root of its own. Sizes are
natural numbers; the code's u64 arithmetic only shifts right and subtracts, so
no size below 2^64 can tell the two apart. -/
namespace Dynodoc.Transparency
open List Nat

variable {Hash : Type}

inductive Error where
  | hex (reason : String)
  | base64 (reason : String)
  | sizeOutOfRange (size max : Nat)
  | indexOutOfRange (index size : Nat)
  | missingNode (level index : Nat)
  | badInclusionProof
  | badConsistencyProof
  | malformedKey (reason : String)
  | keyIdMismatch
  | unsupportedKeyType (kind : UInt8)
  | invalidKeyName
  | wrongSignerKind
  | malformedNote (reason : String)
  | duplicateSignature (name : String)
  | malformedCheckpoint (reason : String)
  | checkpointExtension
  | invalidOrigin (reason : String)
  | wrongOrigin (expected found : String)
  | missingLogSignature
  | badSignature (name : String)
  | invalidLeaf (reason : String)
  | bundleSizeMismatch (bundle checkpoint : Nat)
  | leafMismatch
  | splitView (size : Nat)
  | inconsistent (known new : Nat)
  | storage (reason : String)
  | missingTile (path : String)
  | corruptTile (path : String)
  | entryTooLarge (bytes : Nat)
  deriving DecidableEq, Repr

/-- The two hashes the tree shape depends on; SHA-256 itself stays outside. -/
structure Hasher (Hash : Type) where
  nodeHash : Hash → Hash → Hash
  emptyRoot : Hash

def maxProofLen : Nat := 65

/-- Largest power of two strictly below `n`, for `n ≥ 2`. -/
def split (n : Nat) : Nat := 2 ^ Nat.log2 (n - 1)

theorem split_pos (n : Nat) : 0 < split n := Nat.pow_pos (by decide)

theorem split_lt {n : Nat} (two : 2 ≤ n) : split n < n := by
  have h : split n ≤ n - 1 := Nat.log2_self_le (by omega)
  omega

/-- The split is settled by any power of two between half of `n` and `n`. -/
theorem split_eq {n level : Nat} (below : 2 ^ level < n) (above : n ≤ 2 ^ (level + 1)) :
    split n = 2 ^ level := by
  have hlog : Nat.log2 (n - 1) = level := by
    rw [Nat.log2_eq_log_two]
    exact Nat.log_eq_of_pow_le_of_lt_pow (by omega) (by omega)
  rw [split, hlog]

theorem div_of_full {size level count : Nat} (full : size + 1 = (count + 1) * 2 ^ level) :
    size / 2 ^ level = count := by
  have positive : 0 < 2 ^ level := Nat.two_pow_pos level
  apply Nat.div_eq_of_lt_le
  · rw [Nat.succ_mul] at full
    omega
  · omega

/-- `u64::is_power_of_two`. -/
def isPowerOfTwo (n : Nat) : Bool := n ≠ 0 && 2 ^ Nat.log2 n == n

section Roots

variable (H : Hasher Hash)
variable (leaves : List Hash)

/-- The Merkle tree hash of RFC 6962 over a sequence of leaf hashes. -/
def treeHash (leaves : List Hash) : Hash :=
  match leaves with
  | [] => H.emptyRoot
  | [leaf] => leaf
  | a :: b :: rest =>
    let k := split (a :: b :: rest).length
    H.nodeHash (treeHash ((a :: b :: rest).take k)) (treeHash ((a :: b :: rest).drop k))
termination_by leaves.length
decreasing_by
  · have h := split_lt (n := (a :: b :: rest).length) (by simp)
    simp only [length_take]
    omega
  · have h := split_pos (a :: b :: rest).length
    simp only [length_drop, length_cons]
    simp only [length_cons] at h
    omega

theorem treeHash_split (two : 2 ≤ leaves.length) : treeHash H leaves =
      H.nodeHash (treeHash H (leaves.take (split leaves.length)))
        (treeHash H (leaves.drop (split leaves.length))) := by
  match leaves, two with
  | a :: b :: rest, _ => rw [treeHash]

/-- Trees of one size have one shape, so an injective node hash pins the leaves. -/
theorem treeHash_injective (injective : ∀ a b c d, H.nodeHash a b = H.nodeHash c d → a = c ∧ b = d)
    (xs ys : List Hash) (len : xs.length = ys.length)
    (roots : treeHash H xs = treeHash H ys) : xs = ys := by
  match xs, ys, len with
  | [], [], _ => rfl
  | [x], [y], _ => simpa [treeHash] using roots
  | a :: b :: xs, c :: d :: ys, len =>
    have hk := split_lt (n := (a :: b :: xs).length) (by simp)
    have hp := split_pos (a :: b :: xs).length
    rw [treeHash_split H (a :: b :: xs) (by simp), treeHash_split H (c :: d :: ys) (by simp), ← len]
      at roots
    obtain ⟨left, right⟩ := injective _ _ _ _ roots
    have front := treeHash_injective injective _ _ (by simp [len]) left
    have back := treeHash_injective injective _ _ (by simp [len]) right
    rw [← take_append_drop (split (a :: b :: xs).length) (a :: b :: xs), front, back,
      take_append_drop]
termination_by xs.length
decreasing_by
  · simp only [length_take]
    omega
  · simp only [length_drop]
    omega

/-- The leaves below position `index` of level `level`; the last position of a
level may be short. -/
def segment (leaves : List Hash) (level index : Nat) : List Hash :=
  (leaves.drop (index * 2 ^ level)).take (2 ^ level)

def nodeAt (leaves : List Hash) (level index : Nat) : Hash :=
  treeHash H (segment leaves level index)

variable (level index : Nat)

theorem segment_length :
    (segment leaves level index).length = min (2 ^ level) (leaves.length - index * 2 ^ level) := by
  simp [segment]

theorem segment_left :
    (segment leaves (level + 1) index).take (2 ^ level) = segment leaves level (2 * index) := by
  have offset : index * 2 ^ (level + 1) = 2 * index * 2 ^ level := by ring
  have le : 2 ^ level ≤ 2 ^ (level + 1) := Nat.pow_le_pow_right (by decide) (by omega)
  simp [segment, take_take, offset, Nat.min_eq_left le]

theorem segment_right :
    (segment leaves (level + 1) index).drop (2 ^ level) = segment leaves level (2 * index + 1) := by
  have offset : index * 2 ^ (level + 1) + 2 ^ level = (2 * index + 1) * 2 ^ level := by ring
  have double : 2 ^ (level + 1) = 2 ^ level + 2 ^ level := by ring
  have rest : 2 ^ (level + 1) - 2 ^ level = 2 ^ level := Nat.sub_eq_of_eq_add double
  simp [segment, drop_take, offset, rest]

/-- A position with a right child hashes both its children. -/
theorem nodeAt_pair (right : (2 * index + 1) * 2 ^ level < leaves.length) :
    nodeAt H leaves (level + 1) index =
      H.nodeHash (nodeAt H leaves level (2 * index)) (nodeAt H leaves level (2 * index + 1)) := by
  have offset : index * 2 ^ (level + 1) + 2 ^ level = (2 * index + 1) * 2 ^ level := by ring
  have len := segment_length leaves (level + 1) index
  have pos : 1 ≤ 2 ^ level := Nat.one_le_two_pow
  have below : 2 ^ level < (segment leaves (level + 1) index).length := by
    rw [len]
    omega
  have cut : split (segment leaves (level + 1) index).length = 2 ^ level :=
    split_eq below (len ▸ min_le_left _ _)
  rw [nodeAt, treeHash_split H _ (by omega), cut, segment_left, segment_right]
  rfl

theorem nodeAt_single (none : leaves.length ≤ (2 * index + 1) * 2 ^ level) :
    nodeAt H leaves (level + 1) index = nodeAt H leaves level (2 * index) := by
  have offset : index * 2 ^ (level + 1) + 2 ^ level = (2 * index + 1) * 2 ^ level := by ring
  have len := segment_length leaves (level + 1) index
  have short : (segment leaves (level + 1) index).length ≤ 2 ^ level := by omega
  rw [nodeAt, nodeAt, ← segment_left, take_of_length_le short]

theorem nodeAt_root (level : Nat) (covers : leaves.length ≤ 2 ^ level) :
    nodeAt H leaves level 0 = treeHash H leaves := by
  simp [nodeAt, segment, take_of_length_le covers]

theorem nodeAt_take (size level index : Nat) (inside : (index + 1) * 2 ^ level ≤ size) :
    nodeAt H (leaves.take size) level index = nodeAt H leaves level index := by
  have offset : (index + 1) * 2 ^ level = index * 2 ^ level + 2 ^ level := by ring
  have room : 2 ^ level ≤ size - index * 2 ^ level := by omega
  simp [nodeAt, segment, drop_take, take_take, min_eq_left room]

variable {leaves : List Hash}

theorem nodeAt_leaf {index : Nat} (below : index < leaves.length) :
    nodeAt H leaves 0 index = leaves[index] := by
  have one : segment leaves 0 index = [leaves[index]] := by
    rw [segment, Nat.pow_zero, Nat.mul_one, drop_eq_getElem_cons below, take_succ_cons,
      take_zero]
  rw [nodeAt, one, treeHash]

end Roots

section Sources

variable (H : Hasher Hash)

/-- Read access to the stored hashes of a tree. -/
structure HashSource (Hash : Type) where
  size : Nat
  node : Nat → Nat → Except Error Hash

/-- Hash of the `n` leaves from `lo` on; `n` is never 0 where the code calls it. -/
def rangeHash (source : HashSource Hash) (lo n : Nat) : Except Error Hash :=
  if isPowerOfTwo n ∧ lo % n = 0 then source.node (log2 n) (lo / n)
  else if n < 2 then .error (.missingNode 0 lo)
  else do
    let k := split n
    let left ← rangeHash source lo k
    let right ← rangeHash source (lo + k) (n - k)
    return H.nodeHash left right
termination_by n
decreasing_by
  · exact split_lt (by omega)
  · have h := split_pos n
    omega

def checkSize (source : HashSource Hash) (size : Nat) : Except Error Unit :=
  if size > source.size then .error (.sizeOutOfRange size source.size) else .ok ()

def treeRoot (source : HashSource Hash) (size : Nat) : Except Error Hash := do
  checkSize source size
  if size = 0 then return H.emptyRoot
  rangeHash H source 0 size

/-- The source answers for every complete subtree of the leaves. -/
structure HashSource.Stores (source : HashSource Hash) (leaves : List Hash) : Prop where
  size : source.size = leaves.length
  node : ∀ level index, (index + 1) * 2 ^ level ≤ leaves.length →
    source.node level index = .ok (nodeAt H leaves level index)

variable {source : HashSource Hash}

theorem rangeHash_eq
    (stores : source.Stores H leaves) (lo n : Nat) (positive : 0 < n)
    (inside : lo + n ≤ leaves.length) :
    rangeHash H source lo n = .ok (treeHash H ((leaves.drop lo).take n)) := by
  rw [rangeHash]
  split
  · rename_i aligned
    have power : 2 ^ Nat.log2 n = n := by
      simp only [isPowerOfTwo, Bool.and_eq_true, beq_iff_eq] at aligned
      exact aligned.1.2
    have start : lo / n * n = lo := Nat.div_mul_cancel (Nat.dvd_of_mod_eq_zero aligned.2)
    have ends : (lo / n + 1) * 2 ^ Nat.log2 n ≤ leaves.length := by
      rw [power, Nat.add_mul, start]
      omega
    rw [stores.node _ _ ends, nodeAt, segment, power, start]
  · rename_i odd
    split
    · rename_i small
      have one : n = 1 := by omega
      subst one
      exact absurd ⟨by decide, Nat.mod_one lo⟩ odd
    · have lt := split_lt (n := n) (by omega)
      have pos := split_pos n
      have len : ((leaves.drop lo).take n).length = n := by
        simp only [length_take, length_drop]
        omega
      have cut : lo + split n + (n - split n) ≤ leaves.length := by omega
      dsimp only
      rw [rangeHash_eq stores lo (split n) pos (by omega),
        rangeHash_eq stores (lo + split n) (n - split n) (by omega) cut,
        treeHash_split H ((leaves.drop lo).take n) (by omega), len]
      simp only [take_take, min_eq_left (le_of_lt lt), drop_take, drop_drop]
      rfl
termination_by n

/-- The code's tree head over a complete source is the RFC 6962 root of the
prefix it was asked for. -/
theorem treeRoot_eq
    (stores : source.Stores H leaves) (size : Nat) (inside : size ≤ leaves.length) :
    treeRoot H source size = .ok (treeHash H (leaves.take size)) := by
  have room : ¬ size > source.size := by
    rw [stores.size]
    omega
  cases size with
  | zero => simp [treeRoot, checkSize, treeHash]
  | succ size =>
    have range := rangeHash_eq H stores 0 (size + 1) (by omega) (by omega)
    simp only [treeRoot, checkSize, if_neg room, range]
    rfl

end Sources

end Dynodoc.Transparency
