import Dynodoc.Transparency.TileBatch

/-! Runs of a tile log: batches, batches that stop half way, and reopened stores. -/
namespace Dynodoc.Transparency

open Chunks (chunk)
open List TileLog Chunks

variable {log' : TileLog}

inductive TileCall where
  | append (batch : List (List UInt8))
  | reopen
  deriving DecidableEq, Repr

def TileCall.entries : TileCall → List (List UInt8)
  | .append batch => batch
  | .reopen => []

section Runs

variable (H : Hasher HashBytes) (leafHash : List UInt8 → HashBytes)

namespace TileLog

def perform (log : TileLog) : TileCall → Except Error TileLog
  | .append batch =>
    match appendBatch H leafHash batch log with
    | .ok _ log => .ok log
    | .error e _ => .error e
  | .reopen => reopen H log.store

def run (log : TileLog) (calls : List TileCall) : Except Error TileLog :=
  calls.foldlM (perform H leafHash) log

/-- The same log in a process whose writes fail as given. -/
def withFault (log : TileLog) (fault : Option Fault) : TileLog :=
  { log with store := { log.store with fault } }

/-- The log answers every question as the tree in memory over the entries. -/
structure AnswersAsTree (log : TileLog) (entries : List (List UInt8)) : Prop where
  size : log.size = entries.length
  root : (MemoryTree.ofLeaves H (entries.map leafHash)).root H = .ok (log.root H)
  complete : ∀ level index, (∃ hash, log.node H level index = .ok hash) ↔
    (index + 1) * 2 ^ level ≤ log.size
  node : ∀ level index, log.node H level index =
    (MemoryTree.ofLeaves H (entries.map leafHash)).node level index
  entry : ∀ (index : Nat) (below : index < entries.length), log.entry index = .ok entries[index]

end TileLog

variable {H leafHash} {log : TileLog} {entries : List (List UInt8)}

theorem Refines.answersAsTree (refines : Refines H leafHash log entries) :
    log.AnswersAsTree H leafHash entries := by
  have node := refines.holds.node refines.size refines.fits
  refine ⟨refines.size, ?_, ?_, ?_, fun _ => refines.holds.entry refines.size refines.short⟩
  · rw [MemoryTree.root, MemoryTree.ofLeaves_size, refines.root,
      treeRoot_eq H (MemoryTree.ofLeaves_stores H (entries.map leafHash)) _ (Nat.le_refl _),
      take_length]
  · intro level index
    rw [node, refines.size]
    by_cases inside : (index + 1) * 2 ^ level ≤ entries.length
    · simp [inside]
    · simp [inside]
  · intro level index
    rw [node, MemoryTree.ofLeaves_node, length_map]

theorem Refines.withFault (refines : Refines H leafHash log entries) (fault : Option Fault) :
    Refines H leafHash (log.withFault fault) entries :=
  { refines with holds := ⟨refines.holds.size, refines.holds.objects⟩ }

theorem holds_empty : Holds H leafHash .empty [] := by
  refine ⟨rfl, fun path bytes object => ?_⟩
  cases object with
  | tile level index some => simp [tileHashes, completeNodes, chunk] at some
  | bundle index some => simp [chunk] at some

theorem InBounds.left {more : List (List UInt8)} (bounds : InBounds (entries ++ more)) :
    InBounds entries := by
  refine ⟨fun entry mem => bounds.short entry (mem_append_left more mem), ?_⟩
  have fits := bounds.fits
  rw [length_append] at fits
  omega

theorem Refines.perform (refines : Refines H leafHash log entries)
    (working : log.store.fault = none) {call : TileCall}
    (bounds : InBounds (entries ++ call.entries)) :
    ∃ log', log.perform H leafHash call = .ok log' ∧
      Refines H leafHash log' (entries ++ call.entries) ∧ log'.store.fault = none := by
  cases call with
  | reopen =>
    obtain ⟨log', opened, store, refines'⟩ := refines.holds.reopen refines.toInBounds
    refine ⟨log', opened, ?_, store ▸ working⟩
    rwa [TileCall.entries, append_nil]
  | append batch =>
    have ends := appendBatch_ends refines batch
    rw [TileLog.perform]
    cases result : TileLog.appendBatch H leafHash batch log with
    | ok first log' =>
      rw [result] at ends
      exact ⟨log', rfl, ends.refines bounds, ends.faultless working⟩
    | error e log' =>
      rw [result] at ends
      rcases ends.cause with fault | ⟨entry, mem, large⟩
      · exact absurd working fault
      have short := bounds.short entry (mem_append_right entries mem)
      omega

theorem Refines.run (refines : Refines H leafHash log entries) (working : log.store.fault = none)
    {calls : List TileCall} (bounds : InBounds (entries ++ calls.flatMap TileCall.entries)) :
    ∃ log', log.run H leafHash calls = .ok log' ∧
      Refines H leafHash log' (entries ++ calls.flatMap TileCall.entries) := by
  induction calls generalizing log entries with
  | nil =>
    rw [flatMap_nil, append_nil]
    exact ⟨log, rfl, refines⟩
  | cons call calls ih =>
    rw [flatMap_cons, ← append_assoc] at bounds ⊢
    obtain ⟨middle, performed, refines', working'⟩ := refines.perform working bounds.left
    obtain ⟨log', ran, result⟩ := ih refines' working' bounds
    refine ⟨log', ?_, result⟩
    rw [run, foldlM_cons, performed]
    exact ran

/-- Hashes by which runs can be computed. -/
def firstByteLeaf (entry : List UInt8) : HashBytes :=
  ⟨List.replicate 32 (entry.headD 0), length_replicate⟩

def leftHasher : Hasher HashBytes := ⟨fun left _ => left, firstByteLeaf []⟩

variable (H leafHash)

/-- Batches and reopenings in any order leave a log of the tree over all entries. -/
theorem tile_log_refines_memory_tree (calls : List TileCall)
    (short : ∀ call ∈ calls, ∀ entry ∈ call.entries, entry.length ≤ 65535)
    (fits : (calls.flatMap TileCall.entries).length < 2 ^ 63) :
    ∃ log, (reopen H .empty >>= fun log => log.run H leafHash calls) = .ok log ∧
      log.AnswersAsTree H leafHash (calls.flatMap TileCall.entries) := by
  have bounds : InBounds (calls.flatMap TileCall.entries) := by
    refine ⟨fun entry mem => ?_, fits⟩
    obtain ⟨call, called, mem⟩ := mem_flatMap.1 mem
    exact short call called entry mem
  obtain ⟨start, opened, store, refines⟩ :=
    (@holds_empty H leafHash).reopen ⟨by simp, by simp⟩
  obtain ⟨log, ran, refines⟩ := refines.run (by rw [store]; rfl) bounds
  refine ⟨log, ?_, refines.answersAsTree⟩
  rw [opened]
  exact ran

/-- Two batches with the store reopened between, over hashes that keep the first byte. -/
theorem two_batches_refine_memory_tree : ∃ log,
    (reopen leftHasher .empty >>= fun log =>
      log.run leftHasher firstByteLeaf [.append [[1], [2, 3]], .reopen, .append [[4]]]) =
        .ok log ∧ log.AnswersAsTree leftHasher firstByteLeaf [[1], [2, 3], [4]] :=
  tile_log_refines_memory_tree leftHasher firstByteLeaf
    [.append [[1], [2, 3]], .reopen, .append [[4]]] (by decide) (by decide)

/-- The logs that can arise, with the entries of the batches that succeeded. -/
inductive Session : TileLog → List (List UInt8) → Prop where
  | opened {log : TileLog} (opened : reopen H .empty = .ok log) : Session log []
  | appended {log log' : TileLog} {entries batch : List (List UInt8)} {fault : Option Fault}
      {first : Nat} (before : Session log entries)
      (done : appendBatch H leafHash batch (log.withFault fault) = .ok first log')
      (fits : (entries ++ batch).length < 2 ^ 63) : Session log' (entries ++ batch)
  | failed {log log' : TileLog} {entries batch : List (List UInt8)} {fault : Option Fault}
      {e : Error} (before : Session log entries)
      (stopped : appendBatch H leafHash batch (log.withFault fault) = .error e log') :
      Session log' entries
  | reopened {log log' : TileLog} {entries : List (List UInt8)} (before : Session log entries)
      (again : reopen H log.store = .ok log') : Session log' entries

variable {H leafHash}

theorem Failed.refines {batch : List (List UInt8)}
    (failed : Failed H leafHash entries batch log log') (refines : Refines H leafHash log entries) :
    Refines H leafHash log' entries :=
  { refines with
    holds := failed.holds refines.holds
    size := failed.size.trans refines.size
    peaks := failed.frontier ▸ refines.peaks }

theorem Session.refines (session : Session H leafHash log entries) :
    Refines H leafHash log entries := by
  induction session with
  | opened opened =>
    obtain ⟨log, again, -, refines⟩ := (@holds_empty H leafHash).reopen ⟨by simp, by simp⟩
    rw [opened] at again
    cases again
    exact refines
  | @appended log log' entries batch fault first before done fits ih =>
    have ends := appendBatch_ends (ih.withFault fault) batch
    rw [done] at ends
    refine ends.refines ⟨fun entry mem => ?_, fits⟩
    rcases mem_append.1 mem with mem | mem
    · exact ih.short entry mem
    · exact ends.short entry mem
  | @failed log log' entries batch fault e before stopped ih =>
    have ends := appendBatch_ends (ih.withFault fault) batch
    rw [stopped] at ends
    exact ends.refines (ih.withFault fault)
  | @reopened log log' entries before again ih =>
    obtain ⟨log'', opened, -, refines⟩ := ih.holds.reopen ih.toInBounds
    rw [again] at opened
    cases opened
    exact refines

/-- The paths under which a tree of the given size is stored. -/
inductive CommittedPath (size : Nat) : String → Prop where
  | tile (level index : Nat) (some : index * tileWidth < size / 2 ^ (level * tileHeight)) :
      CommittedPath size (hashTilePath level index
        (min tileWidth (size / 2 ^ (level * tileHeight) - index * tileWidth)))
  | bundle (index : Nat) (some : index * tileWidth < size) :
      CommittedPath size (entryBundlePath index (min tileWidth (size - index * tileWidth)))

theorem CommittedPath.object {path : String} (committed : CommittedPath entries.length path) :
    ∃ bytes, Object H leafHash entries path bytes := by
  cases committed with
  | tile level index some =>
    have width := tileHashes_length H (entries.map leafHash) level index
    rw [length_map] at width
    rw [← width]
    refine ⟨_, .tile level index ?_⟩
    rw [width, lt_min_iff]
    exact ⟨by decide, by omega⟩
  | bundle index some =>
    rw [← chunk_length]
    refine ⟨_, .bundle index ?_⟩
    rw [chunk_length, lt_min_iff]
    exact ⟨by decide, by omega⟩

/-- Logs of one tree answer alike. -/
theorem Refines.same (refines : Refines H leafHash log entries)
    (refines' : Refines H leafHash log' entries) : log'.size = log.size ∧ log'.root H = log.root H ∧
      (∀ level index, log'.node H level index = log.node H level index) ∧
      ∀ index, log'.entry index = log.entry index := by
  have sizes : log'.size = log.size := refines'.size.trans refines.size.symm
  refine ⟨sizes, by rw [refines.root, refines'.root], fun level index => ?_, fun index => ?_⟩
  · rw [refines.holds.node refines.size refines.fits, refines'.holds.node refines'.size refines.fits]
  · rcases Nat.lt_or_ge index entries.length with below | beyond
    · rw [refines.holds.entry refines.size refines.short below,
        refines'.holds.entry refines'.size refines.short below]
    · have none : log.size ≤ index := refines.size ▸ beyond
      rw [entry, entry, sizes, if_pos none, if_pos none]

/-- A batch that stops anywhere leaves the committed tree, in memory and in the store. -/
theorem stopped_batch_is_invisible (session : Session H leafHash log entries)
    (batch : List (List UInt8)) (fault : Option Fault) {e : Error} {log' : TileLog}
    (stopped : appendBatch H leafHash batch (log.withFault fault) = .error e log') :
    (log'.size = log.size ∧ log'.frontier = log.frontier ∧ log'.root H = log.root H) ∧
    (∀ path, CommittedPath log.size path →
      log'.store.files[path]? = log.store.files[path]? ∧ log.store.files[path]?.isSome) ∧
    (∃ again, reopen H log'.store = .ok again ∧ again.size = log.size ∧
      again.root H = log.root H ∧
      (∀ level index, again.node H level index = log.node H level index) ∧
      (∀ index, again.entry index = log.entry index) ∧
      again.AnswersAsTree H leafHash entries) ∧
    ∀ calls : List TileCall, (∀ call ∈ calls, ∀ entry ∈ call.entries, entry.length ≤ 65535) →
      (entries ++ calls.flatMap TileCall.entries).length < 2 ^ 63 →
      ∃ final, (log'.withFault none).run H leafHash calls = .ok final ∧
        final.AnswersAsTree H leafHash (entries ++ calls.flatMap TileCall.entries) := by
  have refines := session.refines
  have ends := appendBatch_ends (refines.withFault fault) batch
  rw [stopped] at ends
  have refines' := ends.refines (refines.withFault fault)
  obtain ⟨again, opened, -, reread⟩ := refines'.holds.reopen refines.toInBounds
  obtain ⟨sizes, roots, nodes, items⟩ := refines.same reread
  refine ⟨⟨ends.size, ends.frontier, (refines.same refines').2.1⟩, ?_,
    ⟨again, opened, sizes, roots, nodes, items, reread.answersAsTree⟩, ?_⟩
  · intro path committed
    rw [refines.size] at committed
    obtain ⟨bytes, object⟩ := @CommittedPath.object H leafHash _ _ committed
    rw [refines'.holds.objects path bytes object, refines.holds.objects path bytes object]
    exact ⟨rfl, rfl⟩
  · intro calls short fits
    have bounds : InBounds (entries ++ calls.flatMap TileCall.entries) := by
      refine ⟨fun entry mem => ?_, fits⟩
      rcases mem_append.1 mem with mem | mem
      · exact refines.short entry mem
      · obtain ⟨call, called, mem⟩ := mem_flatMap.1 mem
        exact short call called entry mem
    obtain ⟨final, ran, result⟩ := (refines'.withFault none).run rfl bounds
    exact ⟨final, ran, result.answersAsTree⟩

end Runs

/-- The size and the number of stored objects after a batch that stopped. -/
def stoppedAt : EStateM.Result Error TileLog Nat → Option (Nat × Nat)
  | .ok _ _ => none
  | .error _ log => some (log.size, log.store.files.size)

/-- After a batch of two entries the storage accepts the next hash tile and refuses the bundle. -/
theorem refused_bundle_is_invisible : ∃ first log log' e again,
    appendBatch leftHasher firstByteLeaf [[1], [2, 3]] ⟨.empty, 0, []⟩ = .ok first log ∧
    appendBatch leftHasher firstByteLeaf [[4]]
      (log.withFault (some ⟨1, "disk full"⟩)) = .error e log' ∧
    log'.size = log.size ∧ log'.size = 2 ∧ log'.store.files.size = 3 ∧
    reopen leftHasher log'.store = .ok again ∧
    again.AnswersAsTree leftHasher firstByteLeaf [[1], [2, 3]] := by
  have opened : reopen leftHasher .empty = .ok ⟨.empty, 0, []⟩ := rfl
  have runs : (match appendBatch leftHasher firstByteLeaf [[1], [2, 3]] ⟨.empty, 0, []⟩ with
      | .ok _ log => stoppedAt (appendBatch leftHasher firstByteLeaf [[4]]
          (log.withFault (some ⟨1, "disk full"⟩)))
      | .error _ _ => none) = some (2, 3) := by decide +kernel
  cases committed : appendBatch leftHasher firstByteLeaf [[1], [2, 3]] ⟨.empty, 0, []⟩ with
  | error e log =>
    rw [committed] at runs
    contradiction
  | ok first log =>
    have stops : stoppedAt (appendBatch leftHasher firstByteLeaf [[4]]
        (log.withFault (some ⟨1, "disk full"⟩))) = some (2, 3) := by
      rw [committed] at runs
      exact runs
    cases result : appendBatch leftHasher firstByteLeaf [[4]]
        (log.withFault (some ⟨1, "disk full"⟩)) with
    | ok first log' =>
      rw [result] at stops
      contradiction
    | error e log' =>
      rw [result] at stops
      obtain ⟨sized, stored⟩ := Prod.mk.inj (Option.some.inj stops)
      have done : appendBatch leftHasher firstByteLeaf [[1], [2, 3]]
          (withFault ⟨.empty, 0, []⟩ none) = .ok first log := committed
      have session := Session.appended (.opened opened) done (by decide)
      obtain ⟨⟨size, -, -⟩, -, ⟨again, reopened, -, -, -, -, answers⟩, -⟩ :=
        stopped_batch_is_invisible session [[4]] (some ⟨1, "disk full"⟩) result
      exact ⟨first, log, log', e, again, rfl, result, size, sized, stored, reopened, answers⟩

end Dynodoc.Transparency
