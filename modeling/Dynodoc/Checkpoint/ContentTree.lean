import Dynodoc.Checkpoint.ContentCodec

/-! The tree of a byte string. -/
namespace Dynodoc.Checkpoint.Content

open Chunks (pieces Piece)
open List Chunks Nat

/-- The largest object. -/
def objectSize : Nat := headerBytes + chunkBytes

def chunkCount (data : List UInt8) : Nat := (data.length + (chunkBytes - 1)) / chunkBytes

/-- Limits under which every step on a tree over `data` is paid for. -/
def Limits.Enough (limits : Limits) (data : List UInt8) : Prop :=
  limits.Affords objectSize (5 * chunkCount data + 6)

section Tree

variable (sha256 : List UInt8 → Address)
variable {height : Nat} {data : List UInt8}

def node : Nat → List UInt8 → Reference
  | 0, data => ⟨address sha256 (chunkObject data), data.length⟩
  | height + 1, data => ⟨address sha256 (branchObject (height + 1)
      ((pieces (capacity height) data).map (node height))), data.length⟩

def objectOf : Nat → List UInt8 → List UInt8
  | 0, data => chunkObject data
  | height + 1, data =>
    branchObject (height + 1) ((pieces (capacity height) data).map (node sha256 height))

def treeHeight (length : Nat) : Nat := (heightFor length).toOption.getD 0

def rootOf (data : List UInt8) : List UInt8 :=
  rootObject (treeHeight data.length) (node sha256 (treeHeight data.length) data)

/-- The address under which a byte string is found. -/
def contentRoot (data : List UInt8) : Address := address sha256 (rootOf sha256 data)

/-- The objects at all heights over a byte string, and its root. -/
def contentObjects (data : List UInt8) : List (List UInt8) :=
  rootOf sha256 data :: chunkObject (data.take chunkBytes) ::
    (List.range (maxHeight + 1)).flatMap fun height =>
      (pieces (capacity height) data).map (objectOf sha256 height)

def Stored (known : Address → List UInt8 → Prop) : Nat → List UInt8 → Prop
  | 0, data => known (address sha256 (chunkObject data)) (chunkObject data)
  | height + 1, data =>
    known (address sha256 (objectOf sha256 (height + 1) data)) (objectOf sha256 (height + 1) data) ∧
      ∀ x ∈ pieces (capacity height) data, Stored known height x

variable {sha256}

theorem node_eq (height : Nat) (data : List UInt8) :
    node sha256 height data = ⟨address sha256 (objectOf sha256 height data), data.length⟩ := by
  cases height <;> rfl

@[simp] theorem node_length (height : Nat) (data : List UInt8) :
    (node sha256 height data).length = data.length := by
  rw [node_eq]

theorem Stored.mono {known known' : Address → List UInt8 → Prop}
    (more : ∀ a bytes, known a bytes → known' a bytes)
    (stored : Stored sha256 known height data) : Stored sha256 known' height data := by
  induction height generalizing data with
  | zero => exact more _ _ stored
  | succ height ih => exact ⟨more _ _ stored.1, fun x mem => ih (stored.2 x mem)⟩

theorem totalLength_nodes (height width : Nat) (positive : 0 < width) (data : List UInt8) :
    totalLength ((pieces width data).map (node sha256 height)) = data.length := by
  have lengths : ((pieces width data).map (node sha256 height)).map Reference.length =
      (pieces width data).map List.length := by
    simp
  rw [totalLength, lengths, ← length_flatten, flatten_pieces positive]

theorem packed_nodes (height : Nat) (data : List UInt8) :
    packed (capacity height) ((pieces (capacity height) data).map (node sha256 height)) = true := by
  fun_induction pieces (capacity height) data with
  | case1 data none => rfl
  | case2 data more ih =>
    have some := length_pos_iff.2 fun none => more (.inr none)
    by_cases last : data.drop (capacity height) = []
    · rw [last, pieces_nil]
      simp only [map_cons, map_nil, packed, node_length, length_take]
      simp only [Bool.and_eq_true, decide_eq_true_eq]
      omega
    · have long := length_pos_iff.2 last
      rw [length_drop] at long
      rw [pieces, if_neg (not_or.2 ⟨by omega, last⟩)] at ih ⊢
      simp only [map_cons] at ih ⊢
      simp only [packed, node_length, length_take, Bool.and_eq_true, decide_eq_true_eq,
        beq_iff_eq]
      exact ⟨⟨by omega, by omega⟩, ih⟩

variable (sha256)

theorem decode_objectOf_succ (le : height + 1 ≤ maxHeight)
    (some : data ≠ []) (short : data.length ≤ capacity (height + 1)) :
    decode sha256 (address sha256 (objectOf sha256 (height + 1) data))
      (objectOf sha256 (height + 1) data) =
      .ok (.branch (height + 1) ((pieces (capacity height) data).map (node sha256 height))) := by
  have positive := capacity_pos height
  refine decode_branch (succ_pos height) le ?_ ?_ (packed_nodes height data) ?_
  · rw [pieces, if_neg (not_or.2 ⟨by omega, some⟩)]
    exact cons_ne_nil _ _
  · rw [length_map]
    refine pieces_length_le ?_
    rwa [mul_comm, ← capacity_succ]
  · rw [totalLength_nodes height _ positive]
    exact lt_of_le_of_lt short (capacity_lt le)

theorem objectOf_length (short : data.length ≤ capacity height) :
    (objectOf sha256 height data).length ≤ objectSize := by
  cases height with
  | zero =>
    rw [objectOf, chunkObject, length_append]
    exact Nat.add_le_add_left (Nat.le_trans short (by decide)) headerBytes
  | succ height =>
    have few : (pieces (capacity height) data).length ≤ 128 :=
      pieces_length_le (by rwa [Nat.mul_comm, ← fanout, ← capacity_succ])
    have wide : 21 + 128 * 40 ≤ objectSize := by decide
    rw [objectOf, branchObject]
    simp only [length_append, BigEndian.encode_length, length_singleton,
      length_flatMap putReference_length, length_map]
    change 10 + _ ≤ _
    omega

theorem rootOf_length (data : List UInt8) : (rootOf sha256 data).length ≤ objectSize := by
  rw [rootOf, rootObject, length_append, length_append, length_append, (node sha256 _ data).address.2]
  have small : 51 ≤ objectSize := by decide
  exact small

theorem validate_objectOf (other : Address → List UInt8 → Except Error Unit)
    (le : height ≤ maxHeight) (short : data.length ≤ capacity height)
    (some : data ≠ [] ∨ height = 0) :
    validateStored sha256 other (address sha256 (objectOf sha256 height data))
      (objectOf sha256 height data) = .ok () := by
  rw [validateStored]
  cases height with
  | zero =>
    rw [objectOf, decode_chunk (le_trans short (by decide))]
    rfl
  | succ height =>
    rw [decode_objectOf_succ sha256 le (some.resolve_right (succ_ne_zero height)) short]
    rfl

theorem heightFor_treeHeight {length : Nat} (fits : length ≤ capacity maxHeight) :
    heightFor length = .ok (treeHeight length) := by
  have found : ((List.range (maxHeight + 1)).find? fun h => length ≤ capacity h).isSome := by
    rw [find?_isSome]
    exact ⟨maxHeight, mem_range.2 (lt_succ_self _), by simpa using fits⟩
  rw [treeHeight, heightFor]
  cases first : (List.range (maxHeight + 1)).find? fun h => length ≤ capacity h with
  | none =>
    rw [first] at found
    contradiction
  | some h => rfl

theorem treeHeight_eq {length height : Nat} (found : heightFor length = .ok height) :
    treeHeight length = height := by
  rw [treeHeight, found]
  rfl

/-- Different objects of the tree have different addresses. -/
def CollisionFree (data : List UInt8) : Prop :=
  ∀ x ∈ contentObjects sha256 data, ∀ y ∈ contentObjects sha256 data,
    address sha256 x = address sha256 y → x = y

/-- The objects of the tree at their addresses. -/
def IsObject (data : List UInt8) (a : Address) (bytes : List UInt8) : Prop :=
  bytes ∈ contentObjects sha256 data ∧ a = address sha256 bytes

theorem isObject_piece {data x : List UInt8} (le : height ≤ maxHeight)
    (piece : Piece (capacity height) data x) :
    IsObject sha256 data (address sha256 (objectOf sha256 height x))
      (objectOf sha256 height x) := by
  refine ⟨?_, rfl⟩
  rw [contentObjects, mem_cons, mem_cons, mem_flatMap]
  exact .inr (.inr ⟨height, mem_range.2 (lt_succ_of_le le),
    mem_map_of_mem (piece.mem (capacity_pos height))⟩)

theorem isObject_root (data : List UInt8) :
    IsObject sha256 data (contentRoot sha256 data) (rootOf sha256 data) :=
  ⟨mem_cons_self, rfl⟩

theorem trusted_objects (other : Address → List UInt8 → Except Error Unit)
    (fits : data.length ≤ capacity maxHeight) (distinct : CollisionFree sha256 data) :
    Trusted (validateStored sha256 other) (IsObject sha256 data) where
  unique := by
    rintro a bytes bytes' ⟨mem, rfl⟩ ⟨mem', same⟩
    exact distinct bytes' mem' bytes mem same.symm
  valid := by
    rintro a bytes ⟨mem, rfl⟩
    rw [contentObjects, mem_cons, mem_cons, mem_flatMap] at mem
    rcases mem with rfl | rfl | ⟨height, range, mem⟩
    · have own : heightFor (node sha256 (treeHeight data.length) data).length =
          .ok (treeHeight data.length) := by
        rw [node_length]
        exact heightFor_treeHeight fits
      have start : (rootOf sha256 data).take 8 = magic := rfl
      rw [validateStored, rootOf, decode_root own]
      rfl
    · exact validate_objectOf sha256 other (zero_le _)
        (le_trans (length_take_le _ _) (by decide)) (.inr rfl)
    · obtain ⟨x, piece, rfl⟩ := mem_map.1 mem
      have place := piece_of_mem (capacity_pos height) piece
      exact validate_objectOf sha256 other (le_of_lt_succ (mem_range.1 range))
        place.length_le (.inl place.some)

end Tree

end Dynodoc.Checkpoint.Content
