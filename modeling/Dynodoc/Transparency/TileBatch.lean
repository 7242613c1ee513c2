import Dynodoc.Lib.Effect
import Dynodoc.Transparency.TileReads

/-! What one batch computes and writes. Every object it writes belongs to the new tree,
and an object of the new tree at a path of the old one is the old object, so the old tree
stays readable until the size is written. -/
namespace Dynodoc.Transparency

open Std (ExtTreeMap)
open Chunks (chunk)
open OrderedMap (gathered extendAt gathered_extendAt Solid)
open List OrderedMap TileLog Chunks Nat Std.ExtTreeMap TileStore Effect

variable {more added batch : List (List UInt8)} {bytes' : List UInt8}

variable {frontier : List (Nat × HashBytes)} {hashes : NewHashes}
  {entries target : List (List UInt8)} {path : String} {bytes : List UInt8} {before : TileLog}
  {hash : HashBytes} {growth : Growth} {α : Type} {level count : Nat}

variable {l : List α}

variable (H : Hasher HashBytes) (leafHash : List UInt8 → HashBytes)

section Carry

variable {leaves : List HashBytes} {leaf : HashBytes}

theorem tileHashes_full
    (full : leaves.length + 1 = (count + 1) * 2 ^ (level * tileHeight)) (index : Nat) :
    tileHashes H (leaves ++ [leaf]) level index = tileHashes H leaves level index ++
      if count / tileWidth = index then
        [nodeAt H (leaves ++ [leaf]) (level * tileHeight) count]
      else [] := by
  rw [tileHashes, completeNodes_full H full, chunk_append (by decide),
    completeNodes_length, div_of_full full]
  rfl

/-- The state of the carry at one level: the new hash is the node `count` of it, the
tiles up to this level are those of the new tree and the others still those of the old.
`base` is what was stored before the batch. -/
structure Carrying (base : Nat → Nat → List HashBytes) (leaves : List HashBytes)
    (leaf : HashBytes) (level count : Nat) (frontier : List (Nat × HashBytes))
    (hash : HashBytes) (hashes : NewHashes) : Prop where
  full : leaves.length + 1 = (count + 1) * 2 ^ level
  peaks : Peaks H leaves (count * 2 ^ level) frontier
  own : hash = nodeAt H (leaves ++ [leaf]) level count
  done : ∀ tile index, tile * tileHeight ≤ level →
    tileHashes H (leaves ++ [leaf]) tile index = base tile index ++ gathered hashes (tile, index)
  later : ∀ tile index, level < tile * tileHeight →
    tileHashes H leaves tile index = base tile index ++ gathered hashes (tile, index)
  solid : Solid hashes

structure Carried (base : Nat → Nat → List HashBytes) (leaves : List HashBytes)
    (frontier : List (Nat × HashBytes)) (hashes : NewHashes) : Prop where
  peaks : Peaks H leaves leaves.length frontier
  tiles : ∀ tile index,
    tileHashes H leaves tile index = base tile index ++ gathered hashes (tile, index)
  solid : Solid hashes

variable {H} {base : Nat → Nat → List HashBytes}

theorem Carrying.stop (here : Carrying H base leaves leaf level count frontier hash hashes)
    (even : count % 2 = 0) :
    Carried H base (leaves ++ [leaf]) ((level, hash) :: frontier) hashes := by
  have full := here.full
  have aligned : 2 ^ (level + 1) ∣ count * 2 ^ level := by
    rw [Nat.pow_succ, Nat.mul_comm]
    exact Nat.mul_dvd_mul_right (Nat.dvd_of_mod_eq_zero even) _
  have length : (leaves ++ [leaf]).length = count * 2 ^ level + 2 ^ level := by
    rw [length_append, length_singleton, full, Nat.succ_mul]
  refine ⟨?_, ?_, here.solid⟩
  · have added := Peaks.cons (here.peaks.append leaf) aligned (Nat.le_of_eq length.symm)
    rw [Nat.mul_div_cancel _ (Nat.two_pow_pos level), ← here.own] at added
    rwa [length]
  · intro tile index
    rcases Nat.lt_or_ge level (tile * tileHeight) with above | below
    · obtain ⟨k, higher⟩ := Nat.exists_eq_add_of_lt above
      have same : completeNodes H (leaves ++ [leaf]) (level + (k + 1)) =
          completeNodes H leaves (level + (k + 1)) := completeNodes_above H full even k
      rw [← here.later tile index above, tileHashes, tileHashes, higher, Nat.add_assoc, same]
    · exact here.done tile index below

theorem Carrying.join {left : HashBytes} {rest : List (Nat × HashBytes)}
    (here : Carrying H base leaves leaf level count ((level, left) :: rest) hash hashes) :
    Carrying H base leaves leaf (level + 1) (count / 2) rest (H.nodeHash left hash)
      (if (level + 1) % tileHeight = 0 then
        extendAt hashes ((level + 1) / tileHeight,
          ((leaves.length + 1) / 2 ^ (level + 1) - 1) / tileWidth) [H.nodeHash left hash]
      else hashes) := by
  have full := here.full
  have double : 2 ^ (level + 1) = 2 * 2 ^ level := by ring
  have edge := here.peaks
  generalize start_eq : count * 2 ^ level = stop at edge
  obtain ⟨half, odd, peaks, left_eq⟩ : ∃ half, count = 2 * half + 1 ∧
      Peaks H leaves (half * 2 ^ (level + 1)) rest ∧ left = nodeAt H leaves level (2 * half) := by
    cases edge with
    | @cons start _ _ before aligned inside =>
      obtain ⟨half, start⟩ := aligned
      have odd : count = 2 * half + 1 := by
        apply Nat.eq_of_mul_eq_mul_right (Nat.two_pow_pos level)
        rw [start_eq, start]
        ring
      refine ⟨half, odd, by rwa [Nat.mul_comm, ← start], ?_⟩
      rw [start, double, Nat.mul_right_comm, Nat.mul_div_cancel _ (Nat.two_pow_pos level)]
  obtain rfl : half = count / 2 := by omega
  have full' : leaves.length + 1 = (count / 2 + 1) * 2 ^ (level + 1) := by
    rw [full, double, ← Nat.mul_assoc]
    exact congrArg (· * 2 ^ level) (by omega)
  have own : H.nodeHash left hash = nodeAt H (leaves ++ [leaf]) (level + 1) (count / 2) := by
    have starts : (2 * (count / 2) + 1) * 2 ^ level < (leaves ++ [leaf]).length := by
      rw [length_append, length_singleton, full, ← odd]
      exact Nat.mul_lt_mul_of_pos_right (Nat.lt_succ_self count) (Nat.two_pow_pos level)
    have below : 2 * (count / 2) < leaves.length / 2 ^ level := by
      rw [div_of_full full]
      omega
    rw [nodeAt_pair H _ level (count / 2) starts, nodeAt_append H leaves leaf below, ← left_eq,
      ← odd, ← here.own]
  have position : (leaves.length + 1) / 2 ^ (level + 1) - 1 = count / 2 := by
    rw [full', Nat.mul_div_cancel _ (Nat.two_pow_pos _), Nat.add_sub_cancel]
  rw [position]
  refine ⟨full', peaks, own, ?_, ?_, ?_⟩
  case refine_3 =>
    split
    · exact here.solid.extendAt _ (cons_ne_nil _ _)
    · exact here.solid
  all_goals
    intro tile index order
    by_cases whole : (level + 1) % tileHeight = 0
    all_goals simp only [whole, if_true]
  · have tile_eq : (level + 1) / tileHeight * tileHeight = level + 1 :=
      Nat.div_mul_cancel (Nat.dvd_of_mod_eq_zero whole)
    rw [gathered_extendAt, ← append_assoc]
    by_cases same : tile = (level + 1) / tileHeight
    · have reach : tile * tileHeight = level + 1 := same ▸ tile_eq
      rw [tileHashes_full H (reach ▸ full'), ← here.later tile index (by omega), reach, own, same]
      simp [eq_comm]
    · have lower : tile * tileHeight ≤ level := by
        have ne : tile * tileHeight ≠ level + 1 := fun eq =>
          same (by rw [← eq, Nat.mul_div_cancel _ (by decide)])
        omega
      rw [here.done tile index lower, if_neg (fun eq => same (congrArg Prod.fst eq)),
        append_nil]
  · have lower : tile * tileHeight ≤ level := by
      have ne : tile * tileHeight ≠ level + 1 := fun eq =>
        whole (by rw [← eq, mul_mod_left])
      omega
    exact here.done tile index lower
  · have other : tile ≠ (level + 1) / tileHeight := by
      rintro rfl
      have le := div_mul_le_self (level + 1) tileHeight
      omega
    rw [gathered_extendAt, if_neg (fun eq => other (congrArg Prod.fst eq)), append_nil]
    exact here.later tile index (by omega)
  · exact here.later tile index (by omega)

theorem Carrying.carry (here : Carrying H base leaves leaf level count frontier hash hashes) :
    Carried H base (leaves ++ [leaf])
      (carry H (leaves.length + 1) frontier level hash hashes).1
      (carry H (leaves.length + 1) frontier level hash hashes).2 := by
  induction frontier generalizing level count hash hashes with
  | nil =>
    have zero : count = 0 := by
      have none := here.peaks.eq_zero
      have positive := Nat.two_pow_pos level
      rcases Nat.mul_eq_zero.1 none with zero | zero
      · exact zero
      · omega
    exact here.stop (by omega)
  | cons peak rest ih =>
    obtain ⟨width, left⟩ := peak
    rw [Transparency.carry]
    by_cases same : width = level
    · subst same
      rw [if_neg (fun ne => ne rfl)]
      exact ih here.join
    · rw [if_pos same]
      refine here.stop ?_
      -- a narrower subtree would end inside a node of this level
      have wider : level < width := by
        by_contra narrow
        have aligned : 2 ^ (width + 1) ∣ count * 2 ^ level :=
          (Nat.pow_dvd_pow 2 (by omega)).trans (Nat.dvd_mul_left _ _)
        exact Nat.lt_irrefl width (here.peaks.above aligned rfl)
      have peaks := here.peaks
      generalize start_eq : count * 2 ^ level = stop at peaks
      cases peaks with
      | @cons start _ _ before aligned inside =>
        have whole : 2 ^ (level + 1) ∣ start + 2 ^ width :=
          Nat.dvd_add ((Nat.pow_dvd_pow 2 (by omega)).trans aligned)
            (Nat.pow_dvd_pow 2 wider)
        rw [← start_eq, Nat.pow_succ, Nat.mul_comm] at whole
        exact Nat.mod_eq_zero_of_dvd (Nat.dvd_of_mul_dvd_mul_right (Nat.two_pow_pos level) whole)

end Carry

/-- A growth over committed entries that has taken in `added`. -/
structure Grown (entries added : List (List UInt8)) (growth : Growth) : Prop extends
    Carried H (tileHashes H (entries.map leafHash)) ((entries ++ added).map leafHash)
      growth.frontier growth.hashes where
  size : growth.size = (entries ++ added).length

variable {H leafHash}

theorem Grown.add (grown : Grown H leafHash entries added growth) (entry : List UInt8) :
    Grown H leafHash entries (added ++ [entry]) (growth.add H leafHash entry) := by
  have length : ((entries ++ added).map leafHash).length = growth.size := by
    rw [length_map, grown.size]
  have full : ((entries ++ added).map leafHash).length + 1 = (growth.size + 1) * 2 ^ 0 := by
    rw [length, pow_zero, mul_one]
  have own : leafHash entry =
      nodeAt H ((entries ++ added).map leafHash ++ [leafHash entry]) 0 growth.size := by
    rw [nodeAt_leaf H (by simp [← length])]
    simp [← length]
  have start : Carrying H (tileHashes H (entries.map leafHash))
      ((entries ++ added).map leafHash) (leafHash entry) 0 growth.size growth.frontier
      (leafHash entry)
      (extendAt growth.hashes (0, growth.size / tileWidth) [leafHash entry]) := by
    refine ⟨full, by simpa [← length] using grown.peaks, own, ?_, ?_,
      grown.solid.extendAt _ (cons_ne_nil _ _)⟩
    · intro tile index low
      obtain rfl : tile = 0 := by
        rcases Nat.mul_eq_zero.1 (Nat.le_zero.1 low) with zero | zero
        · exact zero
        · cases zero
      rw [tileHashes_full H (by rw [Nat.zero_mul]; exact full), gathered_extendAt,
        ← append_assoc, ← grown.tiles 0 index, Nat.zero_mul, ← own]
      simp [eq_comm]
    · intro tile index high
      have other : tile ≠ 0 := by
        rintro rfl
        omega
      rw [gathered_extendAt, if_neg (fun eq => other (congrArg Prod.fst eq)), append_nil]
      exact grown.tiles tile index
  have carried := start.carry
  rw [length] at carried
  have whole : (entries ++ (added ++ [entry])).map leafHash =
      (entries ++ added).map leafHash ++ [leafHash entry] := by simp
  refine { toCarried := ?_, size := ?_ }
  · rw [whole]
    exact carried
  · have length_size := grown.size
    rw [length_append] at length_size
    change growth.size + 1 = _
    simp only [length_append, length_singleton]
    omega

theorem Grown.foldl (grown : Grown H leafHash entries added growth) (more : List (List UInt8)) :
    Grown H leafHash entries (added ++ more) (more.foldl (Growth.add H leafHash) growth) := by
  induction more generalizing added growth with
  | nil => rwa [append_nil]
  | cons entry more ih =>
    rw [append_cons]
    exact ih (grown.add entry)

theorem bundleEntries_gathered (entries batch : List (List UInt8)) (index : Nat) :
    (chunk tileWidth index (entries ++ batch)).flatMap encodeEntry =
      (chunk tileWidth index entries).flatMap encodeEntry ++
        gathered (bundleEntries entries.length batch) index := by
  induction batch using List.reverseRecOn with
  | nil => simp [bundleEntries, gathered]
  | append_singleton batch entry ih =>
    rw [bundleEntries, zipIdx_append, foldl_append, ← append_assoc,
      chunk_append (by decide), flatMap_append, ih, length_append,
      append_assoc]
    simp only [zipIdx_cons, zipIdx_nil, foldl_cons, foldl_nil, zero_add]
    rw [gathered_extendAt]
    by_cases here : (entries.length + batch.length) / tileWidth = index
    · rw [if_pos here, if_pos here.symm]
      simp [bundleEntries]
    · rw [if_neg here, if_neg (Ne.symm here)]
      simp [bundleEntries]

theorem bundleEntries_solid (first : Nat) (batch : List (List UInt8)) :
    Solid (bundleEntries first batch) := by
  induction batch using List.reverseRecOn with
  | nil => exact solid_empty
  | append_singleton batch entry ih =>
    rw [bundleEntries, zipIdx_append, foldl_append]
    exact ih.extendAt _ (cons_ne_nil _ _)

theorem exists_completeNodes_append (leaves more : List HashBytes) (level : Nat) :
    ∃ extra, completeNodes H (leaves ++ more) level = completeNodes H leaves level ++ extra := by
  induction more using List.reverseRecOn with
  | nil => exact ⟨[], by rw [append_nil, append_nil]⟩
  | append_singleton more leaf ih =>
    obtain ⟨extra, grown⟩ := ih
    rw [← append_assoc, completeNodes_append, grown, append_assoc]
    exact ⟨_, rfl⟩

theorem exists_tileHashes_append (leaves more : List HashBytes) (level index : Nat) :
    ∃ extra, tileHashes H (leaves ++ more) level index = tileHashes H leaves level index ++ extra := by
  obtain ⟨extra, grown⟩ := @exists_completeNodes_append H leaves more (level * tileHeight)
  rw [tileHashes, grown]
  exact exists_chunk_append tileWidth index _ extra

/-- An object of a larger tree at the path of an object of the tree is that object. -/
theorem Object.stable (old : Object H leafHash entries path bytes)
    (new : Object H leafHash (entries ++ more) path bytes') : bytes' = bytes := by
  cases old with
  | tile level index some =>
    generalize path_eq : hashTilePath level index _ = path at new
    cases new with
    | tile level' index' some' =>
      obtain ⟨rfl, rfl, widths⟩ := TileAt.hashes.inj (TileAt.path_injective path_eq)
      obtain ⟨extra, grown⟩ := @exists_tileHashes_append H (entries.map leafHash)
        (more.map leafHash) level index
      rw [map_append, grown, length_append] at widths
      have none : extra = [] := length_eq_zero_iff.1 (by omega)
      rw [map_append, grown, none, append_nil]
    | bundle index' some' => cases @TileAt.path_injective (.hashes ..) (.entries ..) path_eq
  | bundle index some =>
    generalize path_eq : entryBundlePath index _ = path at new
    cases new with
    | tile level' index' some' =>
      cases @TileAt.path_injective (.entries ..) (.hashes ..) path_eq
    | bundle index' some' =>
      obtain ⟨rfl, widths⟩ := TileAt.entries.inj (TileAt.path_injective path_eq)
      obtain ⟨extra, grown⟩ := exists_chunk_append tileWidth index entries more
      rw [grown, length_append] at widths
      have none : extra = [] := length_eq_zero_iff.1 (by omega)
      rw [grown, none, append_nil]

/-- A log in the middle of the writes for `target`: only objects of the target have
been added to the store. -/
structure Steady (H : Hasher HashBytes) (leafHash : List UInt8 → HashBytes)
    (target : List (List UInt8)) (before log : TileLog) : Prop where
  size : log.size = before.size
  frontier : log.frontier = before.frontier
  committed : log.store.size = before.store.size
  files : ∀ path : String, log.store.files[path]? = before.store.files[path]? ∨
    ∃ bytes, Object H leafHash target path bytes ∧ log.store.files[path]? = some bytes
  faultless : before.store.fault = none → log.store.fault = none

theorem Steady.start (target : List (List UInt8)) (log : TileLog) :
    Steady H leafHash target log log :=
  ⟨rfl, rfl, rfl, fun _ => .inl rfl, id⟩

theorem Steady.kept {log : TileLog} (steady : Steady H leafHash (entries ++ more) before log)
    (holds : Holds H leafHash before.store entries)
    (object : Object H leafHash entries path bytes) : log.store.files[path]? = some bytes := by
  rcases steady.files path with same | ⟨bytes', new, found⟩
  · rw [same]
    exact holds.objects path bytes object
  · rw [found, object.stable new]

theorem Steady.holds {log : TileLog} (steady : Steady H leafHash (entries ++ more) before log)
    (holds : Holds H leafHash before.store entries) : Holds H leafHash log.store entries where
  size := steady.committed.trans holds.size
  objects _ _ := steady.kept holds

/-- The objects of the target at the paths done are in the store. -/
def Filled (H : Hasher HashBytes) (leafHash : List UInt8 → HashBytes)
    (target : List (List UInt8)) (done : String → Prop) (log : TileLog) : Prop :=
  ∀ path bytes, done path → Object H leafHash target path bytes →
    log.store.files[path]? = some bytes

/-- The state after part of the writes, and after a failure. -/
def Writing (H : Hasher HashBytes) (leafHash : List UInt8 → HashBytes)
    (target : List (List UInt8)) (before : TileLog) (done : String → Prop) (log : TileLog) : Prop :=
  Steady H leafHash target before log ∧ Filled H leafHash target done log

def Stopped (H : Hasher HashBytes) (leafHash : List UInt8 → HashBytes)
    (target : List (List UInt8)) (before log : TileLog) : Prop :=
  Steady H leafHash target before log ∧ before.store.fault ≠ none

theorem spend_ok {store store' : TileStore} (spent : store.spend = .ok store') :
    store'.files = store.files ∧ store'.size = store.size ∧
      (store.fault = none → store'.fault = none) := by
  rw [spend] at spent
  split at spent
  · cases spent
    exact ⟨rfl, rfl, id⟩
  · cases spent
  · rename_i some
    cases spent
    refine ⟨rfl, rfl, fun none => ?_⟩
    rw [none] at some
    contradiction

theorem spend_error {store : TileStore} {e : Error} (refused : store.spend = .error e) :
    store.fault ≠ none := by
  intro none
  rw [spend, none] at refused
  contradiction

theorem Object.unique (object : Object H leafHash entries path bytes)
    (object' : Object H leafHash entries path bytes') : bytes' = bytes := by
  rw [← append_nil entries] at object'
  exact object.stable object'

theorem put_object
    (object : Object H leafHash target path bytes) (before : TileLog) (done : String → Prop) :
    Effect.Triple (Writing H leafHash target before done) (onStore (·.put path bytes))
      (fun _ => Writing H leafHash target before fun p => done p ∨ p = path)
      (Stopped H leafHash target before) := by
  rintro log ⟨steady, filled⟩
  rw [onStore, put]
  cases spent : log.store.spend with
  | error e => exact ⟨steady, fun none => spend_error spent (steady.faultless none)⟩
  | ok store =>
    obtain ⟨files, size, fault⟩ := spend_ok spent
    have own (p : String) : (store.files.insert path bytes)[p]? =
        if p = path then some bytes else log.store.files[p]? := by
      rw [OrderedMap.getElem?_insert, files]
    refine ⟨⟨steady.size, steady.frontier, size.trans steady.committed, fun p => ?_,
      fun none => fault (steady.faultless none)⟩, fun p bytes' was object' => ?_⟩
    · by_cases here : p = path
      · subst here
        exact .inr ⟨bytes, object, (own p).trans (if_pos rfl)⟩
      · rcases steady.files p with same | ⟨b, new, found⟩
        · exact .inl ((own p).trans ((if_neg here).trans same))
        · exact .inr ⟨b, new, (own p).trans ((if_neg here).trans found)⟩
    · refine (own p).trans ?_
      by_cases here : p = path
      · subst here
        rw [if_pos rfl, object.unique object']
      · rw [if_neg here]
        exact filled p bytes' (was.resolve_right here) object'

theorem write_objects {write : α → EStateM Error TileLog Unit} {path : α → String}
    {bytes : α → List UInt8} (objects : ∀ a ∈ l, Object H leafHash target (path a) (bytes a))
    (each : ∀ a ∈ l, ∀ log, Steady H leafHash target before log →
      write a log = onStore (·.put (path a) (bytes a)) log) (done : String → Prop) :
    Effect.Triple (Writing H leafHash target before done) (l.forM write)
      (fun _ => Writing H leafHash target before fun p => done p ∨ ∃ a ∈ l, p = path a)
      (Stopped H leafHash target before) := by
  have rounds : ∀ sofar a rest, l = sofar ++ a :: rest →
      Effect.Triple
        (Writing H leafHash target before fun p => done p ∨ ∃ b ∈ sofar, p = path b) (write a)
        (fun _ => Writing H leafHash target before fun p => done p ∨ ∃ b ∈ sofar ++ [a], p = path b)
        (Stopped H leafHash target before) := by
    intro sofar a rest split log writing
    have mem : a ∈ l := by simp [split]
    rw [each a mem log writing.1]
    refine (put_object (objects a mem) before _).conseq (fun _ => id) ?_ log writing
    rintro _ log' ⟨steady, filled⟩
    refine ⟨steady, fun p b was => filled p b ?_⟩
    rcases was with was | ⟨b, mem, here⟩
    · exact .inl (.inl was)
    · rcases mem_append.1 mem with mem | mem
      · exact .inl (.inr ⟨b, mem, here⟩)
      · exact .inr (here.trans (congrArg path (mem_singleton.1 mem)))
  refine (Effect.Triple.forM _ rounds).conseq ?_ fun _ _ => id
  rintro log ⟨steady, filled⟩
  refine ⟨steady, fun p b was => filled p b (was.resolve_right ?_)⟩
  rintro ⟨a, mem, -⟩
  contradiction

theorem reading_eq {read : TileStore → Except Error α} {log : TileLog} {a : α}
    (found : read log.store = .ok a) : reading read log = .ok a log := by
  rw [reading, found]

theorem committedBytes_eq {f : α → List UInt8}
    {read : TileStore → Except Error (List UInt8)} {log : TileLog}
    (found : 0 < l.length → read log.store = .ok (l.flatMap f)) :
    committedBytes l.length read log = .ok (l.flatMap f) log := by
  rw [committedBytes]
  cases l with
  | nil => rfl
  | cons a l =>
    have some : 0 < (a :: l).length := succ_pos l.length
    rw [if_pos some, reading_eq (found some)]

section Writes

variable (holds : Holds H leafHash before.store entries) (size : before.size = entries.length)

include holds size

/-- A hash tile is read at its committed width and written with the new hashes behind. -/
theorem writeHashTile_eq
    (carried : Carried H (tileHashes H (entries.map leafHash)) ((entries ++ batch).map leafHash)
      frontier hashes)
    {tile : (Nat × Nat) × List HashBytes} (mem : tile ∈ hashes.toList) {log : TileLog}
    (steady : Steady H leafHash (entries ++ batch) before log) : writeHashTile tile log =
      onStore (·.put
        (hashTilePath tile.1.1 tile.1.2
          (tileHashes H ((entries ++ batch).map leafHash) tile.1.1 tile.1.2).length)
        ((tileHashes H ((entries ++ batch).map leafHash) tile.1.1 tile.1.2).flatMap
          Subtype.val)) log := by
  obtain ⟨⟨level, index⟩, new⟩ := tile
  have stored : hashes[(level, index)]? = some new :=
    mem_toList_iff_getElem?_eq_some.1 mem
  have grown : tileHashes H ((entries ++ batch).map leafHash) level index =
      tileHashes H (entries.map leafHash) level index ++ new := by
    rw [carried.tiles, gathered, stored]
    rfl
  have nonempty : 0 < new.length := length_pos_iff.2 (carried.solid _ _ stored)
  have committed : log.size / 2 ^ (level * tileHeight) - index * tileWidth =
      (tileHashes H (entries.map leafHash) level index).length := by
    have most := tileHashes_length H ((entries ++ batch).map leafHash) level index
    have least := tileHashes_length H (entries.map leafHash) level index
    rw [grown, length_append] at most
    rw [length_map] at least
    rw [steady.size, size]
    omega
  have width : ((tileHashes H ((entries ++ batch).map leafHash) level index).flatMap
      Subtype.val).length / 32 =
      (tileHashes H ((entries ++ batch).map leafHash) level index).length := by
    rw [length_flatMap (fun hash : HashBytes => hash.property),
      Nat.mul_div_cancel _ (by decide)]
  have whole := congrArg (List.flatMap Subtype.val) grown
  rw [flatMap_append] at whole
  simp only [writeHashTile, get_bind, committed]
  rw [bind_of_ok (committedBytes_eq (steady.holds holds).readHashTile)]
  simp only [← whole, width]

theorem writeBundle_eq (short : ∀ entry ∈ entries ++ batch, entry.length ≤ 65535)
    {bundle : Nat × List UInt8} (mem : bundle ∈ (bundleEntries entries.length batch).toList)
    {log : TileLog} (steady : Steady H leafHash (entries ++ batch) before log) :
    writeBundle bundle log =
      onStore (·.put
        (entryBundlePath bundle.1 (chunk tileWidth bundle.1 (entries ++ batch)).length)
        ((chunk tileWidth bundle.1 (entries ++ batch)).flatMap encodeEntry)) log := by
  obtain ⟨index, new⟩ := bundle
  have stored : (bundleEntries entries.length batch)[index]? = some new :=
    mem_toList_iff_getElem?_eq_some.1 mem
  have whole : (chunk tileWidth index (entries ++ batch)).flatMap encodeEntry =
      (chunk tileWidth index entries).flatMap encodeEntry ++ new := by
    rw [bundleEntries_gathered, gathered, stored]
    rfl
  have longer : (chunk tileWidth index entries).length <
      (chunk tileWidth index (entries ++ batch)).length := by
    obtain ⟨extra, grown⟩ := exists_chunk_append tileWidth index entries batch
    rw [grown, length_append]
    refine Nat.lt_add_of_pos_right (length_pos_iff.2 ?_)
    rintro rfl
    rw [grown, append_nil, self_eq_append_right] at whole
    exact bundleEntries_solid _ _ _ _ stored whole
  have committed : log.size - index * tileWidth = (chunk tileWidth index entries).length := by
    have most := chunk_length tileWidth index (entries ++ batch)
    have least := chunk_length tileWidth index entries
    rw [steady.size, size]
    omega
  have counted (l : List (List UInt8)) (le : ∀ entry ∈ l, entry ∈ entries ++ batch) :
      countEntries ((chunk tileWidth index l).flatMap encodeEntry) =
        .ok (chunk tileWidth index l).length :=
    countEntries_flatMap fun entry mem =>
      short entry (le entry (mem_of_mem_drop (mem_of_mem_take mem)))
  simp only [writeBundle, get_bind, committed]
  rw [bind_of_ok (committedBytes_eq (steady.holds holds).readBundle),
    bind_of_ok (reading_eq (counted entries fun _ mem => mem_append_left _ mem)),
    ← whole, bind_of_ok (reading_eq (counted (entries ++ batch) fun _ mem => mem))]

theorem writeHashTiles
    (carried : Carried H (tileHashes H (entries.map leafHash)) ((entries ++ batch).map leafHash)
      frontier hashes) (done : String → Prop) :
    Effect.Triple (Writing H leafHash (entries ++ batch) before done)
      (hashes.toList.forM writeHashTile)
      (fun _ => Writing H leafHash (entries ++ batch) before fun path => done path ∨
        ∃ tile ∈ hashes.toList, path = hashTilePath tile.1.1 tile.1.2
          (tileHashes H ((entries ++ batch).map leafHash) tile.1.1 tile.1.2).length)
      (Stopped H leafHash (entries ++ batch) before) := by
  refine write_objects (fun tile mem => .tile tile.1.1 tile.1.2 ?_)
    (fun tile mem log steady => writeHashTile_eq holds size carried mem steady) done
  have stored : hashes[tile.1]? = some tile.2 := mem_toList_iff_getElem?_eq_some.1 mem
  rw [carried.tiles, length_append, gathered, stored]
  exact lt_of_lt_of_le (length_pos_iff.2 (carried.solid _ _ stored))
    (le_add_left _ _)

theorem writeBundles (short : ∀ entry ∈ entries ++ batch, entry.length ≤ 65535)
    (done : String → Prop) :
    Effect.Triple (Writing H leafHash (entries ++ batch) before done)
      ((bundleEntries entries.length batch).toList.forM writeBundle)
      (fun _ => Writing H leafHash (entries ++ batch) before fun path => done path ∨
        ∃ bundle ∈ (bundleEntries entries.length batch).toList, path =
          entryBundlePath bundle.1 (chunk tileWidth bundle.1 (entries ++ batch)).length)
      (Stopped H leafHash (entries ++ batch) before) := by
  refine write_objects (fun bundle mem => .bundle bundle.1 ?_)
    (fun bundle mem log steady => writeBundle_eq holds size short mem steady) done
  have stored : (bundleEntries entries.length batch)[bundle.1]? = some bundle.2 :=
    mem_toList_iff_getElem?_eq_some.1 mem
  refine length_pos_iff.2 fun none => bundleEntries_solid _ _ _ _ stored ?_
  have whole := bundleEntries_gathered entries batch bundle.1
  rw [none, flatMap_nil, eq_comm, append_eq_nil_iff, gathered, stored] at whole
  exact whole.2

omit size in
/-- Once the new tiles and bundles are written every object of the new tree is stored. -/
theorem Writing.complete
    (carried : Carried H (tileHashes H (entries.map leafHash)) ((entries ++ batch).map leafHash)
      frontier hashes) {log : TileLog}
    (writing : Writing H leafHash (entries ++ batch) before (fun path =>
      (False ∨ ∃ tile ∈ hashes.toList, path = hashTilePath tile.1.1 tile.1.2
        (tileHashes H ((entries ++ batch).map leafHash) tile.1.1 tile.1.2).length) ∨
      ∃ bundle ∈ (bundleEntries entries.length batch).toList, path =
        entryBundlePath bundle.1 (chunk tileWidth bundle.1 (entries ++ batch)).length) log)
    (object : Object H leafHash (entries ++ batch) path bytes) :
    log.store.files[path]? = some bytes := by
  obtain ⟨steady, filled⟩ := writing
  cases object with
  | tile level index nonempty =>
    by_cases new : gathered hashes (level, index) = []
    · have same := carried.tiles level index
      rw [new, append_nil] at same
      rw [same] at nonempty ⊢
      exact steady.kept holds (.tile level index nonempty)
    · refine filled _ _ (.inl (.inr ⟨((level, index), gathered hashes (level, index)), ?_, rfl⟩))
        (.tile level index nonempty)
      exact mem_toList_iff_getElem?_eq_some.2 (getElem?_of_gathered new)
  | bundle index nonempty =>
    by_cases new : gathered (bundleEntries entries.length batch) index = []
    · have same : chunk tileWidth index (entries ++ batch) = chunk tileWidth index entries := by
        obtain ⟨extra, grown⟩ := exists_chunk_append tileWidth index entries batch
        have whole := bundleEntries_gathered entries batch index
        rw [new, grown, append_nil, flatMap_append, append_right_eq_self] at whole
        cases extra with
        | nil => rw [grown, append_nil]
        | cons entry extra => contradiction
      rw [same] at nonempty ⊢
      exact steady.kept holds (.bundle index nonempty)
    · refine filled _ _ (.inr ⟨(index, gathered (bundleEntries entries.length batch) index), ?_,
        rfl⟩) (.bundle index nonempty)
      exact mem_toList_iff_getElem?_eq_some.2 (getElem?_of_gathered new)

end Writes

/-- A batch that ends well is in the tree. -/
structure Appended (H : Hasher HashBytes) (leafHash : List UInt8 → HashBytes)
    (entries batch : List (List UInt8)) (before : TileLog) (first : Nat) (log : TileLog) :
    Prop where
  first : first = entries.length
  short : ∀ entry ∈ batch, entry.length ≤ 65535
  refines : InBounds (entries ++ batch) → Refines H leafHash log (entries ++ batch)
  faultless : before.store.fault = none → log.store.fault = none

/-- A batch that fails leaves the log as it was and adds stray objects at most; without a
fault of the storage only an entry that is too large makes it fail. -/
structure Failed (H : Hasher HashBytes) (leafHash : List UInt8 → HashBytes)
    (entries batch : List (List UInt8)) (before log : TileLog) : Prop extends
    Steady H leafHash (entries ++ batch) before log where
  cause : before.store.fault ≠ none ∨ ∃ entry ∈ batch, 65535 < entry.length

/-- The size is written last, and only then the log changes. -/
theorem commit
    (grown : Grown H leafHash entries batch growth) (short : ∀ entry ∈ batch, entry.length ≤ 65535)
    {written : TileLog → Prop} (steady : ∀ log, written log →
      Steady H leafHash (entries ++ batch) before log)
    (stored : ∀ log, written log → ∀ path bytes, Object H leafHash (entries ++ batch) path bytes →
      log.store.files[path]? = some bytes) : Effect.Triple written
      (do
        onStore (·.setSize growth.size)
        modify fun log => { log with size := growth.size, frontier := growth.frontier }
        pure entries.length)
      (Appended H leafHash entries batch before) (Stopped H leafHash (entries ++ batch) before) := by
  intro log start
  simp only [bind, EStateM.bind, onStore, setSize]
  cases spent : log.store.spend with
  | error e =>
    exact ⟨steady log start, fun none => spend_error spent ((steady log start).faultless none)⟩
  | ok store =>
    obtain ⟨files, -, fault⟩ := spend_ok spent
    refine ⟨rfl, short, fun bounds => ?_, fun none => fault ((steady log start).faultless none)⟩
    refine { bounds with holds := ⟨grown.size, ?_⟩, size := grown.size, peaks := ?_ }
    · intro path bytes object
      rw [files]
      exact stored log start path bytes object
    · have peaks := grown.peaks
      rwa [length_map] at peaks

theorem appendBatch_ends {log : TileLog}
    (refines : Refines H leafHash log entries) (batch : List (List UInt8)) :
    Effect.Ends (appendBatch H leafHash batch log)
      (Appended H leafHash entries batch log) (Failed H leafHash entries batch log) := by
  rw [appendBatch, Effect.get_bind]
  by_cases none : batch = []
  · subst none
    refine ⟨refines.size, by simp, fun _ => ?_, id⟩
    rwa [append_nil]
  rw [if_neg none]
  cases large : batch.find? (fun entry => 65535 < entry.length) with
  | some entry =>
    refine ⟨Steady.start _ log, .inr ⟨entry, mem_of_find?_eq_some large, ?_⟩⟩
    simpa using find?_some large
  | none =>
    have short : ∀ entry ∈ batch, entry.length ≤ 65535 := by
      simpa using find?_eq_none.1 large
    have all : ∀ entry ∈ entries ++ batch, entry.length ≤ 65535 := by
      intro entry mem
      rcases mem_append.1 mem with mem | mem
      · exact refines.short entry mem
      · exact short entry mem
    have start : Grown H leafHash entries [] ⟨log.size, log.frontier, ∅⟩ := by
      refine { toCarried := ⟨?_, ?_, solid_empty⟩, size := ?_ }
      · rw [append_nil, length_map]
        exact refines.peaks
      · intro tile index
        simp [gathered]
      · rw [append_nil]
        exact refines.size
    have grown := start.foldl batch
    have triple := (writeHashTiles refines.holds refines.size grown.toCarried
      fun _ => False).bind fun _ => (writeBundles refines.holds refines.size all _).bind fun _ =>
        commit grown short (fun _ writing => writing.1) fun _ writing _ _ =>
          writing.complete refines.holds grown.toCarried
    have ends := triple log ⟨Steady.start _ log, fun _ _ was => was.elim⟩
    simp only [refines.size] at ends ⊢
    exact ends.mono (fun _ _ => id) fun _ stopped => ⟨stopped.1, .inl stopped.2⟩

end Dynodoc.Transparency
