import Std.Data.ExtTreeMap
import Dynodoc.Lib.Chunks
import Dynodoc.Lib.OrderedMap
import Dynodoc.Transparency.Merkle
import Dynodoc.Transparency.TilePath

/-! A tree kept in tiles: every level that is a multiple of eight, 256 hashes to an
object, and the entries themselves in bundles of 256. Storage is a map from paths to
bytes with the committed size beside it, and may stop accepting writes at any moment.
Sizes are natural numbers: the code's checked arithmetic answers `missingNode` where an
index is too large, and here the comparison with the size does. -/
namespace Dynodoc.Transparency

open Std (ExtTreeMap)
open List OrderedMap Nat UInt8

variable {entries : List (List UInt8)}

/-- The bytes of one SHA-256 hash. -/
abbrev HashBytes := { bytes : List UInt8 // bytes.length = 32 }

variable {leaves : List HashBytes}

/-- When writing fails and with which error of the system. -/
structure Fault where
  writes : Nat
  reason : String
  deriving DecidableEq, Repr

structure TileStore where
  files : ExtTreeMap String (List UInt8)
  size : Nat
  /-- The writes that still succeed, if not all of them do. -/
  fault : Option Fault

namespace TileStore

def empty : TileStore := ⟨∅, 0, none⟩

/-- One write is counted, or refused. -/
def spend (store : TileStore) : Except Error TileStore :=
  match store.fault with
  | none => .ok store
  | some ⟨0, reason⟩ => .error (.storage reason)
  | some ⟨writes + 1, reason⟩ => .ok { store with fault := some ⟨writes, reason⟩ }

def put (store : TileStore) (path : String) (bytes : List UInt8) : Except Error TileStore := do
  let store ← store.spend
  .ok { store with files := store.files.insert path bytes }

def setSize (store : TileStore) (size : Nat) : Except Error TileStore := do
  let store ← store.spend
  .ok { store with size }

def readObject (store : TileStore) (path : String) : Except Error (List UInt8) :=
  match store.files[path]? with
  | some bytes => .ok bytes
  | none => .error (.missingTile path)

def readHashTile (store : TileStore) (level index width : Nat) : Except Error (List UInt8) := do
  let path := hashTilePath level index width
  let bytes ← store.readObject path
  if bytes.length ≠ width * 32 then .error (.corruptTile path) else .ok bytes

end TileStore

structure TileLog where
  store : TileStore
  size : Nat
  /-- The roots of the complete subtrees, the smallest first: the end of the source's
  vector is the head of this list. -/
  frontier : List (Nat × HashBytes)

/-- `chunks_exact(32)`. -/
def splitHashes (bytes : List UInt8) : List HashBytes :=
  if enough : 32 ≤ bytes.length then
    ⟨bytes.take 32, by rw [length_take]; omega⟩ :: splitHashes (bytes.drop 32)
  else []
termination_by bytes.length
decreasing_by
  rw [length_drop]
  omega

theorem splitHashes_flatMap (hashes : List HashBytes) :
    splitHashes (hashes.flatMap Subtype.val) = hashes := by
  induction hashes with
  | nil =>
    rw [splitHashes]
    rfl
  | cons hash hashes ih =>
    have first : (hash.val ++ hashes.flatMap Subtype.val).take 32 = hash.val :=
      take_left' hash.property
    have rest : (hash.val ++ hashes.flatMap Subtype.val).drop 32 =
        hashes.flatMap Subtype.val :=
      drop_left' hash.property
    rw [flatMap_cons, splitHashes, dif_pos (by rw [length_append]; omega),
      rest, ih]
    exact congrArg (· :: hashes) (Subtype.ext first)

/-- One entry as the bundles hold it: its length in two bytes, then its bytes. -/
def encodeEntry (entry : List UInt8) : List UInt8 :=
  ofNat (entry.length / 256) :: ofNat (entry.length % 256) :: entry

/-- The first entry of a bundle and what follows it. -/
def splitEntry : List UInt8 → Option (List UInt8 × List UInt8)
  | high :: low :: tail =>
    let len := high.toNat * 256 + low.toNat
    if tail.length < len then none else some (tail.take len, tail.drop len)
  | _ => none

theorem splitEntry_length {bytes entry rest : List UInt8}
    (found : splitEntry bytes = some (entry, rest)) : rest.length < bytes.length := by
  match bytes with
  | high :: low :: tail =>
    simp only [splitEntry, Option.ite_none_left_eq_some, Option.some.injEq, Prod.mk.injEq] at found
    rw [← found.2.2, length_drop, length_cons, length_cons]
    omega

def countEntries (bytes : List UInt8) : Except Error Nat :=
  if bytes = [] then .ok 0
  else
    match found : splitEntry bytes with
    | none => .error (.corruptTile "entry bundle")
    | some (_, rest) => do .ok ((← countEntries rest) + 1)
termination_by bytes.length
decreasing_by exact splitEntry_length found

theorem splitEntry_encodeEntry {entry : List UInt8} (short : entry.length ≤ 65535)
    (rest : List UInt8) : splitEntry (encodeEntry entry ++ rest) = some (entry, rest) := by
  have length : (ofNat (entry.length / 256)).toNat * 256 +
      (ofNat (entry.length % 256)).toNat = entry.length := by
    rw [toNat_ofNat', toNat_ofNat']
    omega
  rw [encodeEntry, cons_append, cons_append, splitEntry, length, if_neg (by simp),
    take_left, drop_left]

theorem countEntries_flatMap (short : ∀ entry ∈ entries, entry.length ≤ 65535) :
    countEntries (entries.flatMap encodeEntry) = .ok entries.length := by
  induction entries with
  | nil =>
    rw [countEntries]
    rfl
  | cons entry entries ih =>
    have first := splitEntry_encodeEntry (short entry mem_cons_self)
      (entries.flatMap encodeEntry)
    have rest := ih fun e mem => short e (mem_cons_of_mem entry mem)
    rw [flatMap_cons, countEntries, if_neg (by simp [encodeEntry])]
    split
    · rename_i none
      rw [first] at none
      contradiction
    · rename_i found
      rw [first] at found
      cases found
      rw [rest]
      rfl

def entryAt (path : String) : Nat → List UInt8 → Except Error (List UInt8)
  | position, bytes =>
    match splitEntry bytes with
    | none => .error (.corruptTile path)
    | some (entry, rest) =>
      match position with
      | 0 => .ok entry
      | position + 1 => entryAt path position rest

theorem entryAt_flatMap
    (short : ∀ entry ∈ entries, entry.length ≤ 65535) (path : String) {position : Nat}
    {entry : List UInt8} (here : entries[position]? = some entry) :
    entryAt path position (entries.flatMap encodeEntry) = .ok entry := by
  induction entries generalizing position with
  | nil => simp at here
  | cons first entries ih =>
    have split := splitEntry_encodeEntry (short first mem_cons_self)
      (entries.flatMap encodeEntry)
    rw [flatMap_cons]
    unfold entryAt
    rw [split]
    cases position with
    | zero => simpa using here
    | succ position =>
      exact ih (fun e mem => short e (mem_cons_of_mem first mem)) (by simpa using here)

section Log

variable (H : Hasher HashBytes) (leafHash : List UInt8 → HashBytes)

def pairUp : List HashBytes → List HashBytes
  | left :: right :: rest => H.nodeHash left right :: pairUp rest
  | _ => []

theorem pairUp_length : ∀ nodes, (pairUp H nodes).length = nodes.length / 2
  | [] => rfl
  | [_] => by simp [pairUp]
  | _ :: _ :: rest => by
    rw [pairUp, length_cons, pairUp_length rest, length_cons, length_cons]
    omega

/-- Hash neighbours together until one hash is left. -/
def collapse (nodes : List HashBytes) : Option HashBytes :=
  if 1 < nodes.length then collapse (pairUp H nodes) else nodes.head?
termination_by nodes.length
decreasing_by
  rw [pairUp_length]
  omega

theorem pairUp_nodes {level : Nat} (count start : Nat)
    (inside : (2 * (start + count)) * 2 ^ level ≤ leaves.length) :
    pairUp H ((List.range (2 * count)).map fun i => nodeAt H leaves level (2 * start + i)) =
      (List.range count).map fun i => nodeAt H leaves (level + 1) (start + i) := by
  induction count generalizing start with
  | zero => rfl
  | succ count ih =>
    have rest := ih (start + 1) (by rwa [add_assoc, add_comm 1 count])
    have right : (2 * start + 1) * 2 ^ level < leaves.length := by
      refine Nat.lt_of_lt_of_le ?_ inside
      exact Nat.mul_lt_mul_of_pos_right (by omega) (Nat.two_pow_pos level)
    rw [Nat.mul_succ, range_succ_eq_map, range_succ_eq_map, range_succ_eq_map]
    simp only [map_cons, Nat.add_zero]
    rw [nodeAt_pair H leaves level start right]
    refine congrArg₂ List.cons rfl ?_
    have low (i : Nat) : nodeAt H leaves level (2 * start + (i + 1 + 1)) =
        nodeAt H leaves level (2 * (start + 1) + i) := congrArg _ (by omega)
    have high (i : Nat) : nodeAt H leaves (level + 1) (start + (i + 1)) =
        nodeAt H leaves (level + 1) (start + 1 + i) := congrArg _ (by omega)
    simpa [Function.comp_def, low, high] using rest

theorem collapse_nodes (sub : Nat) {level index : Nat}
    (inside : (index + 1) * 2 ^ (level + sub) ≤ leaves.length) :
    collapse H ((List.range (2 ^ sub)).map fun i => nodeAt H leaves level (index * 2 ^ sub + i)) =
      some (nodeAt H leaves (level + sub) index) := by
  induction sub generalizing level with
  | zero =>
    rw [collapse]
    simp
  | succ sub ih =>
    have positive := Nat.two_pow_pos sub
    have whole : 2 * (index * 2 ^ sub + 2 ^ sub) * 2 ^ level ≤ leaves.length := by
      refine Nat.le_trans (Nat.le_of_eq ?_) inside
      ring
    have halves : 2 ^ (sub + 1) = 2 * 2 ^ sub := by ring
    have place : index * 2 ^ (sub + 1) = 2 * (index * 2 ^ sub) := by ring
    rw [collapse, if_pos (by rw [length_map, length_range]; omega), place, halves,
      pairUp_nodes H (2 ^ sub) (index * 2 ^ sub) whole, ih (by rwa [add_right_comm]),
      add_right_comm]
    rfl

namespace TileLog

def node (log : TileLog) (level index : Nat) : Except Error HashBytes := do
  if 64 ≤ level then .error (.missingNode level index)
  else
    let tileLevel := level / tileHeight
    let sub := level % tileHeight
    let complete := log.size / 2 ^ (tileLevel * tileHeight)
    let first := index * 2 ^ sub
    if complete < first + 2 ^ sub then .error (.missingNode level index)
    else
      let tile := first / tileWidth
      let width := min (complete - tile * tileWidth) tileWidth
      let bytes ← log.store.readHashTile tileLevel tile width
      let offset := first % tileWidth
      let nodes := splitHashes ((bytes.drop (offset * 32)).take (2 ^ sub * 32))
      -- the source takes `nodes[0]`: a tile of the right length has one
      match collapse H nodes with
      | some hash => .ok hash
      | none => .error (.missingNode level index)

/-- The levels below `level` of `open`, from the widest subtree on. -/
def openFrom (log : TileLog) : Nat → Nat → List (Nat × HashBytes) →
    Except Error (List (Nat × HashBytes))
  | 0, _, frontier => .ok frontier
  | level + 1, position, frontier =>
    if log.size / 2 ^ level % 2 = 1 then do
      let hash ← node H log level (position / 2 ^ level)
      openFrom log level (position + 2 ^ level) ((level, hash) :: frontier)
    else openFrom log level position frontier

/-- `open`, which is a word of Lean. -/
def reopen (store : TileStore) : Except Error TileLog := do
  let log : TileLog := ⟨store, store.size, []⟩
  .ok { log with frontier := ← openFrom H log 64 0 [] }

def root (log : TileLog) : HashBytes :=
  match log.frontier with
  | [] => H.emptyRoot
  | (_, hash) :: rest => rest.foldl (fun right peak => H.nodeHash peak.2 right) hash

def entry (log : TileLog) (index : Nat) : Except Error (List UInt8) := do
  if log.size ≤ index then .error (.indexOutOfRange index log.size)
  else
    let bundle := index / tileWidth
    let width := min (log.size - bundle * tileWidth) tileWidth
    let path := entryBundlePath bundle width
    let bytes ← log.store.readObject path
    entryAt path (index % tileWidth) bytes

end TileLog

instance tileKeyOrd : Ord (Nat × Nat) := lexOrd

instance tileKeyTransOrd : Std.TransOrd (Nat × Nat) := inferInstanceAs (Std.TransCmp (@compare _ lexOrd))

instance tileKeyLawfulEqOrd : Std.LawfulEqOrd (Nat × Nat) :=
  inferInstanceAs (Std.LawfulEqCmp (@compare _ lexOrd))

/-- New hashes by tile level and tile index. -/
abbrev NewHashes := ExtTreeMap (Nat × Nat) (List HashBytes)

/-- What a batch adds to a log before anything is written. -/
structure Growth where
  size : Nat
  frontier : List (Nat × HashBytes)
  hashes : NewHashes

/-- Join the new hash with the subtrees of its own width, one level after the other. -/
def carry (size : Nat) : List (Nat × HashBytes) → Nat → HashBytes → NewHashes →
    List (Nat × HashBytes) × NewHashes
  | [], level, hash, hashes => ([(level, hash)], hashes)
  | (width, left) :: rest, level, hash, hashes =>
    if width ≠ level then ((level, hash) :: (width, left) :: rest, hashes)
    else
      let hash := H.nodeHash left hash
      let level := level + 1
      let hashes :=
        if level % tileHeight = 0 then
          extendAt hashes
            (level / tileHeight, (size / 2 ^ level - 1) / tileWidth) [hash]
        else hashes
      carry size rest level hash hashes

def Growth.add (growth : Growth) (entry : List UInt8) : Growth :=
  let hash := leafHash entry
  let hashes := extendAt growth.hashes (0, growth.size / tileWidth) [hash]
  let carried := carry H (growth.size + 1) growth.frontier 0 hash hashes
  ⟨growth.size + 1, carried.1, carried.2⟩

def bundleEntries (first : Nat) (entries : List (List UInt8)) : ExtTreeMap Nat (List UInt8) :=
  entries.zipIdx.foldl
    (fun bundles e => extendAt bundles ((first + e.2) / tileWidth) (encodeEntry e.1)) ∅

namespace TileLog

/-- A step of `append_batch` on the store alone. -/
def onStore (write : TileStore → Except Error TileStore) : EStateM Error TileLog Unit :=
  fun log =>
    match write log.store with
    | .ok store => .ok () { log with store }
    | .error e => .error e log

def reading {α : Type} (read : TileStore → Except Error α) : EStateM Error TileLog α :=
  fun log =>
    match read log.store with
    | .ok a => .ok a log
    | .error e => .error e log

/-- What is committed of an object, if anything is. -/
def committedBytes (committed : Nat) (read : TileStore → Except Error (List UInt8)) :
    EStateM Error TileLog (List UInt8) :=
  if 0 < committed then reading read else pure []

def writeHashTile (tile : (Nat × Nat) × List HashBytes) : EStateM Error TileLog Unit := do
  let log ← get
  -- the hashes of this tile that are committed come before the new ones
  let stored := log.size / 2 ^ (tile.1.1 * tileHeight)
  let committed := stored - tile.1.2 * tileWidth
  let bytes ← committedBytes committed (·.readHashTile tile.1.1 tile.1.2 committed)
  let bytes := bytes ++ tile.2.flatMap Subtype.val
  let width := bytes.length / 32
  onStore (·.put (hashTilePath tile.1.1 tile.1.2 width) bytes)

def writeBundle (bundle : Nat × List UInt8) : EStateM Error TileLog Unit := do
  let log ← get
  let committed := log.size - bundle.1 * tileWidth
  let bytes ← committedBytes committed (·.readObject (entryBundlePath bundle.1 committed))
  -- the count before is compared in debug builds only, but a broken bundle is refused here
  let _ ← reading fun _ => countEntries bytes
  let bytes := bytes ++ bundle.2
  let width ← reading fun _ => countEntries bytes
  onStore (·.put (entryBundlePath bundle.1 width) bytes)

def appendBatch (entries : List (List UInt8)) : EStateM Error TileLog Nat := do
  let log ← get
  let first := log.size
  if entries = [] then pure first
  else
    match entries.find? (fun entry => 65535 < entry.length) with
    | some entry => throw (.entryTooLarge entry.length)
    | none =>
      let growth := entries.foldl (Growth.add H leafHash) ⟨log.size, log.frontier, ∅⟩
      growth.hashes.toList.forM writeHashTile
      (bundleEntries first entries).toList.forM writeBundle
      onStore (·.setSize growth.size)
      modify fun log => { log with size := growth.size, frontier := growth.frontier }
      pure first

end TileLog

end Log

end Dynodoc.Transparency
