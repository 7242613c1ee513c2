import Dynodoc.Transparency.Peaks
import Dynodoc.Transparency.Tiles

/-! What a store holds for a tree, and that a log over such a store answers as the tree
in memory does. -/
namespace Dynodoc.Transparency

open Std (ExtTreeMap)
open Chunks (chunk)
open List Chunks Nat

variable {entries : List (List UInt8)} {index : Nat} {store : TileStore}

variable (H : Hasher HashBytes) (leafHash : List UInt8 → HashBytes)

def tileHashes (leaves : List HashBytes) (level index : Nat) : List HashBytes :=
  chunk tileWidth index (completeNodes H leaves (level * tileHeight))

/-- The objects of the tree over the entries, each at the path of its width. -/
inductive Object (entries : List (List UInt8)) : String → List UInt8 → Prop where
  | tile (level index : Nat)
      (some : 0 < (tileHashes H (entries.map leafHash) level index).length) :
      Object entries
        (hashTilePath level index (tileHashes H (entries.map leafHash) level index).length)
        ((tileHashes H (entries.map leafHash) level index).flatMap Subtype.val)
  | bundle (index : Nat) (some : 0 < (chunk tileWidth index entries).length) :
      Object entries (entryBundlePath index (chunk tileWidth index entries).length)
        ((chunk tileWidth index entries).flatMap encodeEntry)

/-- The store of a committed tree; it may hold other objects beside. -/
structure Holds (store : TileStore) (entries : List (List UInt8)) : Prop where
  size : store.size = entries.length
  objects : ∀ path bytes, Object H leafHash entries path bytes → store.files[path]? = some bytes

/-- Bounds of the code: lengths of entries are written in two bytes, sizes are `u64`. -/
structure InBounds (entries : List (List UInt8)) : Prop where
  short : ∀ entry ∈ entries, entry.length ≤ 65535
  fits : entries.length < 2 ^ 63

theorem tileHashes_length (leaves : List HashBytes) (level index : Nat) :
    (tileHashes H leaves level index).length =
      min tileWidth (leaves.length / 2 ^ (level * tileHeight) - index * tileWidth) := by
  rw [tileHashes, chunk_length, completeNodes_length]

/-- A node below the top of a tile lies in one tile with its whole row. -/
theorem row_in_tile {sub : Nat} (low : sub < tileHeight) (index : Nat) :
    index * 2 ^ sub % tileWidth + 2 ^ sub ≤ tileWidth := by
  have factor : tileWidth = 2 ^ (tileHeight - sub) * 2 ^ sub := by
    rw [← Nat.pow_add, Nat.sub_add_cancel (Nat.le_of_lt low)]
    rfl
  have below : index % 2 ^ (tileHeight - sub) < 2 ^ (tileHeight - sub) :=
    Nat.mod_lt _ (Nat.two_pow_pos _)
  rw [factor, Nat.mul_mod_mul_right, ← Nat.succ_mul]
  exact Nat.mul_le_mul_right _ below

theorem tileHashes_row {leaves : List HashBytes} {level sub : Nat} (low : sub < tileHeight)
    (inside : (index + 1) * 2 ^ sub ≤ leaves.length / 2 ^ (level * tileHeight)) :
    ((tileHashes H leaves level (index * 2 ^ sub / tileWidth)).drop
        (index * 2 ^ sub % tileWidth)).take (2 ^ sub) =
      (List.range (2 ^ sub)).map fun i =>
        nodeAt H leaves (level * tileHeight) (index * 2 ^ sub + i) := by
  have row := row_in_tile low index
  have place := div_add_mod' (index * 2 ^ sub) tileWidth
  rw [succ_mul] at inside
  apply ext_getElem?
  intro i
  by_cases here : i < 2 ^ sub
  · rw [getElem?_take, if_pos here, getElem?_drop, tileHashes,
      getElem?_chunk _ _ (by omega), ← add_assoc, place, completeNodes,
      getElem?_map, getElem?_map, getElem?_range (by omega),
      getElem?_range here]
    rfl
  · rw [getElem?_take, if_neg here, getElem?_eq_none (by simpa using here)]

section Reads

variable {H leafHash}

theorem Holds.readHashTile (holds : Holds H leafHash store entries) {level : Nat}
    (some : 0 < (tileHashes H (entries.map leafHash) level index).length) :
    store.readHashTile level index (tileHashes H (entries.map leafHash) level index).length =
      .ok ((tileHashes H (entries.map leafHash) level index).flatMap Subtype.val) := by
  have found := holds.objects _ _ (.tile level index some)
  have length := length_flatMap (fun hash : HashBytes => hash.property)
    (tileHashes H (entries.map leafHash) level index)
  simp only [TileStore.readHashTile, TileStore.readObject, found, bind, Except.bind, length,
    ne_eq, not_true_eq_false, if_false]

theorem Holds.readBundle (holds : Holds H leafHash store entries)
    (some : 0 < (chunk tileWidth index entries).length) :
    store.readObject (entryBundlePath index (chunk tileWidth index entries).length) =
      .ok ((chunk tileWidth index entries).flatMap encodeEntry) := by
  rw [TileStore.readObject, holds.objects _ _ (.bundle index some)]

variable {log : TileLog} (holds : Holds H leafHash log.store entries)
  (size : log.size = entries.length)

include holds size

/-- The log answers for the complete subtrees and for nothing else. -/
theorem Holds.node (fits : entries.length < 2 ^ 63) (level index : Nat) :
    log.node H level index =
      if (index + 1) * 2 ^ level ≤ entries.length then
        .ok (nodeAt H (entries.map leafHash) level index)
      else .error (.missingNode level index) := by
  rw [TileLog.node]
  by_cases high : 64 ≤ level
  · have wide : 2 ^ 64 ≤ (index + 1) * 2 ^ level :=
      (Nat.pow_le_pow_right (by decide) high).trans (Nat.le_mul_of_pos_left _ (by omega))
    rw [if_pos high, if_neg (by omega)]
  · rw [if_neg high]
    simp only [size]
    have sub_lt : level % tileHeight < tileHeight := mod_lt _ (by decide)
    have levels : level / tileHeight * tileHeight + level % tileHeight = level :=
      div_add_mod' level tileHeight
    have width : (index + 1) * 2 ^ (level % tileHeight) * 2 ^ (level / tileHeight * tileHeight) =
        (index + 1) * 2 ^ level := by
      rw [mul_assoc, ← pow_add, add_comm (level % tileHeight), levels]
    have complete : (index + 1) * 2 ^ (level % tileHeight) ≤
        entries.length / 2 ^ (level / tileHeight * tileHeight) ↔
          (index + 1) * 2 ^ level ≤ entries.length := by
      rw [Nat.le_div_iff_mul_le (Nat.two_pow_pos _), width]
    rw [← Nat.succ_mul]
    by_cases inside : (index + 1) * 2 ^ level ≤ entries.length
    · have row := complete.2 inside
      rw [if_neg (not_lt.2 row), if_pos inside]
      have own := tileHashes_length H (entries.map leafHash) (level / tileHeight)
        (index * 2 ^ (level % tileHeight) / tileWidth)
      rw [length_map, min_comm] at own
      have some : 0 < (tileHashes H (entries.map leafHash) (level / tileHeight)
          (index * 2 ^ (level % tileHeight) / tileWidth)).length := by
        have start := Nat.div_mul_le_self (index * 2 ^ (level % tileHeight)) tileWidth
        have positive := Nat.two_pow_pos (level % tileHeight)
        rw [Nat.succ_mul] at row
        rw [own, lt_min_iff]
        exact ⟨by omega, by decide⟩
      rw [← own, holds.readHashTile some]
      simp only [bind, Except.bind]
      rw [drop_flatMap (fun hash : HashBytes => hash.property),
        take_flatMap (fun hash : HashBytes => hash.property), splitHashes_flatMap,
        tileHashes_row H sub_lt (by rwa [length_map]),
        collapse_nodes H _ (by rwa [levels, length_map]), levels]
    · rw [if_pos (Nat.lt_of_not_le (mt complete.1 inside)), if_neg inside]

theorem Holds.entry (short : ∀ entry ∈ entries, entry.length ≤ 65535)
    (below : index < entries.length) : log.entry index = .ok entries[index] := by
  have place := div_add_mod' index tileWidth
  have own := chunk_length tileWidth (index / tileWidth) entries
  have some : 0 < (chunk tileWidth (index / tileWidth) entries).length := by
    rw [own, lt_min_iff]
    exact ⟨by decide, by omega⟩
  have here : (chunk tileWidth (index / tileWidth) entries)[index % tileWidth]? =
      Option.some entries[index] := by
    rw [getElem?_chunk _ _ (mod_lt _ (by decide)), place]
    exact getElem?_eq_getElem below
  rw [TileLog.entry, if_neg (by omega)]
  simp only [size]
  rw [min_comm, ← own, holds.readBundle some]
  exact entryAt_flatMap (fun entry mem => short entry
    (mem_of_mem_drop (mem_of_mem_take mem))) _ here

theorem Holds.openFrom (fits : entries.length < 2 ^ 63) (level : Nat) {position : Nat}
    {frontier : List (Nat × HashBytes)}
    (reached : position = entries.length / 2 ^ level * 2 ^ level)
    (peaks : Peaks H (entries.map leafHash) position frontier) :
    ∃ edge, log.openFrom H level position frontier = .ok edge ∧
      Peaks H (entries.map leafHash) entries.length edge := by
  induction level generalizing position frontier with
  | zero =>
    rw [Nat.pow_zero, Nat.div_one, Nat.mul_one] at reached
    exact ⟨frontier, rfl, reached ▸ peaks⟩
  | succ level ih =>
    have halves : entries.length / 2 ^ (level + 1) = entries.length / 2 ^ level / 2 := by
      rw [Nat.pow_succ, Nat.div_div_eq_div_mul]
    have double : 2 ^ (level + 1) = 2 * 2 ^ level := by ring
    have start : position = 2 * (entries.length / 2 ^ level / 2) * 2 ^ level := by
      rw [reached, halves, double]
      ring
    rw [TileLog.openFrom, size]
    by_cases odd : entries.length / 2 ^ level % 2 = 1
    · have stop : entries.length / 2 ^ level * 2 ^ level = position + 2 ^ level := by
        rw [start, ← succ_mul]
        exact congrArg (· * 2 ^ level) (by omega)
      have inside := div_mul_le_self entries.length (2 ^ level)
      have aligned : 2 ^ (level + 1) ∣ position := ⟨entries.length / 2 ^ level / 2, by
        rw [start, double]
        ring⟩
      have answer := holds.node size fits level (position / 2 ^ level)
      rw [succ_mul, div_mul_of_aligned aligned, if_pos (by omega)] at answer
      rw [if_pos odd, answer]
      exact ih stop.symm (.cons peaks aligned (by rw [length_map]; omega))
    · rw [if_neg odd]
      refine ih ?_ peaks
      rw [start]
      exact congrArg (· * 2 ^ level) (by omega)

end Reads

/-- A log over the store of a tree, with its edge at hand. -/
structure Refines (log : TileLog) (entries : List (List UInt8)) : Prop extends
    InBounds entries where
  holds : Holds H leafHash log.store entries
  size : log.size = entries.length
  peaks : Peaks H (entries.map leafHash) entries.length log.frontier

variable {H leafHash}

theorem Holds.reopen (holds : Holds H leafHash store entries) (bounds : InBounds entries) :
    ∃ log, TileLog.reopen H store = .ok log ∧ log.store = store ∧
      Refines H leafHash log entries := by
  have none : (0 : Nat) = entries.length / 2 ^ 64 * 2 ^ 64 := by
    have fits := bounds.fits
    omega
  have holds' : Holds H leafHash (TileLog.mk store store.size []).store entries := holds
  obtain ⟨edge, read, peaks⟩ := holds'.openFrom holds.size bounds.fits 64 none .nil
  refine ⟨⟨store, store.size, edge⟩, ?_, rfl, { bounds with holds, size := holds.size, peaks }⟩
  simp [TileLog.reopen, read, bind, Except.bind]

theorem Refines.root {log : TileLog} {entries : List (List UInt8)}
    (refines : Refines H leafHash log entries) :
    log.root H = treeHash H (entries.map leafHash) := by
  have peaks := refines.peaks
  rw [TileLog.root]
  cases edge : log.frontier with
  | nil =>
    rw [edge] at peaks
    rw [length_eq_zero_iff.1 peaks.eq_zero, map_nil, treeHash]
  | cons peak rest =>
    rw [edge, ← length_map leafHash] at peaks
    exact peaks.root

end Dynodoc.Transparency
