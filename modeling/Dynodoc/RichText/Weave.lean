import Dynodoc.Lib.Edits
import Dynodoc.RichText.Cells
import Dynodoc.RichText.Merge

/-! A merge of a text container keeps what either side changed: the two scripts of edits are apart,
and the result is the base with both of them applied. -/
namespace Dynodoc.RichText
open Edits List Hunk Nat

variable {env : Externals} {values : List Value} {ops : List DiffOp} {cs : List Cell}
  {map : List (Option Nat)} {all : List (Edit Cell)} {tokens : List Scalar} {styles : Styles}

section Scripts

variable {a b : List Char}

theorem commonPrefixLen_le (a b : List Char) :
    commonPrefixLen a b ≤ a.length ∧ commonPrefixLen a b ≤ b.length := by
  have le : commonPrefixLen a b ≤ (a.zip b).length := (takeWhile_sublist _).length_le
  rw [length_zip] at le
  exact ⟨le.trans (min_le_left _ _), le.trans (min_le_right _ _)⟩

theorem take_commonPrefixLen (a b : List Char) :
    a.take (commonPrefixLen a b) = b.take (commonPrefixLen a b) := by
  induction a generalizing b with
  | nil => simp [commonPrefixLen]
  | cons x a ih =>
    cases b with
    | nil => simp [commonPrefixLen]
    | cons y b =>
      by_cases same : x = y
      · have step : commonPrefixLen (x :: a) (y :: b) = commonPrefixLen a b + 1 := by
          simp [commonPrefixLen, same]
        rw [step, take_succ_cons, take_succ_cons, ih, same]
      · simp [commonPrefixLen, same]

/-- One replacement between the common ends of two texts. -/
def coarseOps (a b : List Char) : List DiffOp :=
  let p := commonPrefixLen a b
  let q := commonPrefixLen (a.drop p).reverse (b.drop p).reverse
  (if p > 0 then [⟨.equal, 0, p, 0, p⟩] else []) ++
    [⟨.replace, p, a.length - p - q, p, b.length - p - q⟩] ++
    (if q > 0 then [⟨.equal, p + (a.length - p - q), q, p + (b.length - p - q), q⟩] else [])

theorem coarse_covers {p q : Nat} (fits : p + q ≤ a.length) (fits' : p + q ≤ b.length)
    (changed : 0 < a.length - p - q + (b.length - p - q)) (left : a.take p = b.take p)
    (right : a.drop (a.length - q) = b.drop (b.length - q)) :
    CoversFrom a b 0 0 ((if p > 0 then [⟨.equal, 0, p, 0, p⟩] else []) ++
      [⟨.replace, p, a.length - p - q, p, b.length - p - q⟩] ++
      (if q > 0 then [⟨.equal, p + (a.length - p - q), q, p + (b.length - p - q), q⟩] else [])) := by
  have tail : CoversFrom a b (p + (a.length - p - q)) (p + (b.length - p - q))
      (if q > 0 then [⟨.equal, p + (a.length - p - q), q, p + (b.length - p - q), q⟩] else []) := by
    have place : p + (a.length - p - q) = a.length - q := by omega
    have place' : p + (b.length - p - q) = b.length - q := by omega
    rw [place, place']
    split
    · simp only [CoversFrom, right, implies_true, true_and]
      omega
    · exact ⟨by omega, by omega⟩
  have middle : CoversFrom a b p p ([⟨.replace, p, a.length - p - q, p, b.length - p - q⟩] ++
      (if q > 0 then [⟨.equal, p + (a.length - p - q), q, p + (b.length - p - q), q⟩] else [])) := by
    simp only [cons_append, nil_append, CoversFrom, true_and, tail, and_true, reduceCtorEq,
      false_implies]
    omega
  rw [append_assoc]
  split
  · simp only [cons_append, nil_append, CoversFrom, true_and, zero_add, drop_zero, left,
      implies_true] at middle ⊢
    exact ⟨by omega, by omega, by omega, middle⟩
  · have zero : p = 0 := by omega
    subst zero
    exact middle

theorem commonEnds_covers (changed : 0 < a.length - commonPrefixLen a b -
      commonPrefixLen (a.drop (commonPrefixLen a b)).reverse (b.drop (commonPrefixLen a b)).reverse +
      (b.length - commonPrefixLen a b -
        commonPrefixLen (a.drop (commonPrefixLen a b)).reverse (b.drop (commonPrefixLen a b)).reverse)) :
    CoversFrom a b 0 0 (coarseOps a b) := by
  have fits := commonPrefixLen_le a b
  have fits' := commonPrefixLen_le (a.drop (commonPrefixLen a b)).reverse
    (b.drop (commonPrefixLen a b)).reverse
  have ends := take_commonPrefixLen (a.drop (commonPrefixLen a b)).reverse
    (b.drop (commonPrefixLen a b)).reverse
  simp only [length_reverse, length_drop] at fits'
  refine coarse_covers (by omega) (by omega) changed (take_commonPrefixLen a b) ?_
  rw [take_reverse, take_reverse, reverse_inj, drop_drop, drop_drop,
    length_drop, length_drop] at ends
  convert ends using 2 <;> omega

open Scalar

/-- A script of edits from the one text to the other, also when it is one coarse replacement. -/
theorem textDiff_covers (env : Externals) (a b : List Scalar) :
    CoversFrom (a.map ch) (b.map ch) 0 0 (textDiff env a b) := by
  unfold textDiff
  generalize a.map ch = a
  generalize b.map ch = b
  dsimp only
  split
  · exact env.capture_covers a b
  · exact commonEnds_covers (by omega)

theorem covers_ordered {i j : Nat} (covers : CoversFrom a b i j ops) :
    (ops.Pairwise fun x y => x.old + x.oldLen ≤ y.old) ∧
      ∀ op ∈ ops, i ≤ op.old ∧ op.old + op.oldLen ≤ a.length := by
  induction ops generalizing i j with
  | nil => simp
  | cons op rest ih =>
    obtain ⟨rfl, -, fits, -, -, -, later⟩ := covers
    obtain ⟨ordered, bounds⟩ := ih later
    refine ⟨pairwise_cons.2 ⟨fun next mem => (bounds next mem).1, ordered⟩, ?_⟩
    intro next mem
    rcases mem_cons.1 mem with rfl | mem
    · exact ⟨le_refl _, fits⟩
    · have := bounds next mem
      omega

end Scripts

section Alignment

variable {i j : Nat}

def targetOp (op : DiffOp) (i : Nat) : Option Nat :=
  if op.tag = .equal ∧ op.old ≤ i ∧ i < op.old + op.oldLen then some (op.new + (i - op.old)) else none

def target (ops : List DiffOp) (i : Nat) : Option Nat := ops.findSome? fun op => targetOp op i

def hunkOf (new : List Scalar) (op : DiffOp) : Hunk :=
  ⟨op.old, op.old + op.oldLen, (new.drop op.new).take op.newLen⟩

def alignOp (new : List Scalar) (acc : List (Option Nat) × List Hunk) (op : DiffOp) :
    List (Option Nat) × List Hunk :=
  if op.tag = .equal then
    ((List.range op.oldLen).foldl (fun map k => map.set (op.old + k) (some (op.new + k))) acc.1, acc.2)
  else (acc.1, acc.2 ++ [hunkOf new op])

theorem alignment_eq (env : Externals) (a b : List Scalar) : alignment env a b =
    (textDiff env a b).foldl (alignOp b) (replicate a.length none, []) := rfl

theorem set_range {map : List (Option Nat)} {old new n : Nat} :
    ((range n).foldl (fun map k => map.set (old + k) (some (new + k))) map)[i]? =
      map[i]?.map fun held => if old ≤ i ∧ i < old + n then some (new + (i - old)) else held := by
  induction n with
  | zero =>
    have outside : ¬ (old ≤ i ∧ i < old) := by omega
    simp [outside]
  | succ n ih =>
    rw [range_succ, foldl_append, foldl_cons, foldl_nil, getElem?_set', ih]
    cases map[i]? with
    | none => simp
    | some held =>
      by_cases last : old + n = i
      · subst last
        simp
      · have same : (old ≤ i ∧ i < old + (n + 1)) ↔ old ≤ i ∧ i < old + n := by omega
        simp [last, same]

theorem align_hunks (new : List Scalar) (acc : List (Option Nat) × List Hunk) :
    (ops.foldl (alignOp new) acc).2 =
      acc.2 ++ (ops.filter fun op => op.tag ≠ .equal).map (hunkOf new) := by
  induction ops generalizing acc with
  | nil => simp
  | cons op rest ih =>
    rw [foldl_cons, ih, alignOp]
    by_cases equal : op.tag = .equal
    · simp [equal]
    · simp [equal]

variable {acc : List (Option Nat) × List Hunk} {new : List Scalar}

theorem alignOp_at (op : DiffOp) :
    (alignOp new acc op).1[i]? = acc.1[i]?.map (targetOp op i).or := by
  unfold alignOp targetOp
  split
  · rename_i equal
    rw [set_range]
    congr
    funext held
    split <;> simp [*]
  · rename_i differs
    rw [if_neg fun inside => differs inside.1]
    cases acc.1[i]? <;> rfl

/-- The blocks of a script do not meet, so each position has the target that its own block gives it. -/
theorem align_at
    (ordered : ops.Pairwise fun x y => x.old + x.oldLen ≤ y.old) :
    (ops.foldl (alignOp new) acc).1[i]? = acc.1[i]?.map (target ops i).or := by
  induction ops generalizing acc with
  | nil => cases h : acc.1[i]? <;> simp [target, h]
  | cons op rest ih =>
    obtain ⟨later, ordered⟩ := pairwise_cons.1 ordered
    rw [foldl_cons, ih ordered, alignOp_at, Option.map_map]
    congr
    funext held
    simp only [target, findSome?_cons]
    cases here : targetOp op i with
    | none => rfl
    | some j =>
      have beyond : rest.findSome? (fun op => targetOp op i) = none := by
        rw [findSome?_eq_none_iff]
        intro next mem
        have := later next mem
        unfold targetOp at here ⊢
        split at here
        · rw [if_neg (by omega)]
        · contradiction
      simp [beyond]

theorem align_join (env : Externals) (a b : List Scalar) (i : Nat) :
    (alignment env a b).1[i]?.join = target (textDiff env a b) i := by
  obtain ⟨ordered, bounds⟩ := covers_ordered (textDiff_covers env a b)
  rw [alignment_eq, align_at ordered, getElem?_replicate]
  split
  · simp
  · have beyond : target (textDiff env a b) i = none := by
      rw [target, findSome?_eq_none_iff]
      intro op mem
      have := (bounds op mem).2
      rw [length_map] at this
      rw [targetOp, if_neg (by omega)]
    simp [beyond]

end Alignment

/-- What a block does to the base, in cells. -/
def Hunk.edit (values : List Value) (h : Hunk) : Edit Cell :=
  ⟨h.start, h.stop, h.insert.filterMap (cellAt values)⟩

theorem overlaps_eq_false {x y : Hunk} : overlaps x y = false ↔
    (x.start = x.stop → ¬ (y.start ≤ x.start ∧ x.start ≤ y.stop)) ∧
    (x.start ≠ x.stop → y.start = y.stop → ¬ (x.start ≤ y.start ∧ y.start ≤ x.stop)) ∧
    (x.start ≠ x.stop → y.start ≠ y.stop → ¬ (x.start < y.stop ∧ y.start < x.stop)) := by
  unfold overlaps
  split
  · simp_all
  · split <;> simp_all

theorem apart_of_not_overlaps {x y : Hunk} (values : List Value) (forward : x.start ≤ x.stop)
    (forward' : y.start ≤ y.stop) (apart : overlaps x y = false) :
    Apart (x.edit values) (y.edit values) := by
  rw [overlaps_eq_false] at apart
  simp only [Apart, edit]
  omega

/-- The linear scan misses no overlap, since the blocks of each side are in order. -/
theorem anyOverlap_complete {ths dhs : List Hunk} (forward : ∀ h ∈ ths ++ dhs, h.start ≤ h.stop)
    (ordered : ths.Pairwise fun x y => x.stop ≤ y.start)
    (ordered' : dhs.Pairwise fun x y => x.stop ≤ y.start)
    (none : anyOverlap ths dhs = false) : ∀ x ∈ ths, ∀ y ∈ dhs, overlaps x y = false := by
  induction ths, dhs using anyOverlap.induct with
  | case1 th ths dh dhs found => simp [anyOverlap, found] at none
  | case2 th ths dh dhs apart before ih =>
    rw [anyOverlap, if_neg apart, if_pos before] at none
    have rest := ih (fun h mem => forward h (by simp_all)) (pairwise_cons.1 ordered).2 ordered' none
    intro x mem y mem'
    rcases mem_cons.1 mem with rfl | mem
    · -- The next block of the other side starts behind `th`, and so do all after it.
      rcases mem_cons.1 mem' with rfl | mem'
      · simpa using apart
      · have later := (pairwise_cons.1 ordered').1 y mem'
        have here := forward x (by simp)
        have there := forward dh (by simp)
        rw [Bool.not_eq_true, overlaps_eq_false] at apart
        rw [overlaps_eq_false]
        omega
    · exact rest x mem y mem'
  | case3 th ths dh dhs apart after ih =>
    rw [anyOverlap, if_neg apart, if_neg after] at none
    have rest := ih (fun h mem => forward h (by simp at mem ⊢; tauto)) ordered
      (pairwise_cons.1 ordered').2 none
    intro x mem y mem'
    rcases mem_cons.1 mem' with rfl | mem'
    · rcases mem_cons.1 mem with rfl | mem
      · simpa using apart
      · have later := (pairwise_cons.1 ordered).1 x mem
        have here := forward th (by simp)
        have there := forward y (by simp)
        rw [Bool.not_eq_true, overlaps_eq_false] at apart
        rw [overlaps_eq_false]
        omega
    · exact rest x mem y mem'
  | case4 ths dhs empty =>
    intro x mem y mem'
    obtain ⟨th, ths', rfl⟩ := exists_cons_of_ne_nil (ne_nil_of_mem mem)
    obtain ⟨dh, dhs', rfl⟩ := exists_cons_of_ne_nil (ne_nil_of_mem mem')
    exact absurd rfl (empty th ths' dh dhs' rfl)

section Loop

variable {b t d : List Scalar} {bc tc dc : List Cell}
  {tm dm : List (Option Nat)} {tops dops : List DiffOp}

/-- A position that both sides keep: the character of the base, and the metadata of the three
merged. -/
def mergedCell (base team draft : List Cell) (tops dops : List DiffOp) (i : Nat) : Option Cell := do
  let old ← base[i]?
  let ours ← (target tops i).bind (team[·]?)
  let theirs ← (target dops i).bind (draft[·]?)
  let metadata ← (mergeProperty (some old.metadata) (some ours.metadata)
    (some theirs.metadata)).toOption.join
  some ⟨old.ch, metadata⟩

open Option (bind_eq_bind bind_eq_some_iff)

theorem styleVia_reads {i style : Nat} (reads : Reads values tokens cs)
    (aligned : ∀ j, map[i]? = some (some j) → target ops i = some j)
    (via : styleVia map tokens i = some style) :
    ∃ cell, (target ops i).bind (cs[·]?) = some cell ∧ values[style]? = some cell.metadata := by
  obtain ⟨j, found, read⟩ := bind_eq_some_iff.1 via
  obtain ⟨token, here, rfl⟩ := Option.map_eq_some_iff.1 read
  obtain ⟨cell, isCell, -, value⟩ := reads.at here
  exact ⟨cell, by rw [aligned j (Option.join_eq_some_iff.1 found)]; exact isCell, value⟩

theorem mergeScalar_spec (readable : env.Readable) {after : Styles} (sound : styles.Filed env)
    (grown : values <+: styles.values) (base : Reads values b bc) (team : Reads values t tc)
    (draft : Reads values d dc) {i : Nat} {token : Scalar}
    (aligned : ∀ j, tm[i]? = some (some j) → target tops i = some j)
    (aligned' : ∀ j, dm[i]? = some (some j) → target dops i = some j)
    (merged : mergeScalar env b (styleVia tm t) (styleVia dm d) styles i = some (token, after)) :
    styles.Grows env after ∧ ∃ cell, mergedCell bc tc dc tops dops i = some cell ∧
      cellAt after.values token = some cell := by
  unfold mergeScalar at merged
  simp only [bind_eq_bind, bind_eq_some_iff] at merged
  obtain ⟨ts, viaTeam, ds, viaDraft, old, here, merged⟩ := merged
  obtain ⟨ours, isOurs, ourValue⟩ := styleVia_reads team aligned viaTeam
  obtain ⟨theirs, isTheirs, theirValue⟩ := styleVia_reads draft aligned' viaDraft
  obtain ⟨cell, isCell, sameChar, value⟩ := base.at here
  split at merged
  · contradiction
  rw [getElem?_grown grown value, getElem?_grown grown ourValue, getElem?_grown grown theirValue] at merged
  split at merged
  · rename_i metadata property
    obtain ⟨grows, known⟩ := intern_spec readable sound metadata
    cases merged
    refine ⟨grows, ⟨old.ch, metadata⟩, ?_, ?_⟩
    · simp only [mergedCell, isCell, isOurs, isTheirs, bind_eq_bind, Option.bind_some, property,
        sameChar]
      rfl
    · rw [cellAt, known]
      rfl
  · contradiction

/-- The fixed data of one merge: the tokens of the three sides and what they stand for. -/
structure Setting (env : Externals) (values : List Value) (b t d : List Scalar) (bc tc dc : List Cell)
    (tm dm : List (Option Nat)) (tops dops : List DiffOp) : Prop where
  readable : env.Readable
  base : Reads values b bc
  team : Reads values t tc
  draft : Reads values d dc
  aligned : ∀ i j, tm[i]? = some (some j) → target tops i = some j
  aligned' : ∀ i j, dm[i]? = some (some j) → target dops i = some j

variable {after : Styles} {result out : List Scalar}

theorem mergeKept_spec (setting : Setting env values b t d bc tc dc tm dm tops dops)
    {positions : List Nat} (sound : styles.Filed env) (grown : values <+: styles.values)
    (reads : Reads styles.values result cs)
    (merged : mergeKept env b (styleVia tm t) (styleVia dm d) positions result styles = some (out, after)) :
    styles.Grows env after ∧ (∀ i ∈ positions, (mergedCell bc tc dc tops dops i).isSome) ∧
      Reads after.values out
        (cs ++ positions.flatMap fun i => (mergedCell bc tc dc tops dops i).toList) := by
  unfold mergeKept at merged
  induction positions generalizing styles result cs with
  | nil =>
    cases merged
    exact ⟨sound.refl, by simp, by simpa using reads⟩
  | cons i positions ih =>
    rw [foldlM_cons, bind_eq_bind, bind_eq_some_iff] at merged
    obtain ⟨⟨next, middle⟩, step, merged⟩ := merged
    simp only [bind_eq_bind, bind_eq_some_iff] at step
    obtain ⟨⟨token, interned⟩, scalar, step⟩ := step
    cases step
    obtain ⟨grows, cell, isMerged, read⟩ := mergeScalar_spec setting.readable sound grown setting.base
      setting.team setting.draft (setting.aligned i) (setting.aligned' i) scalar
    have one : Reads interned.values [token] [cell] := by
      rw [Reads, map_cons, read]
      rfl
    obtain ⟨grows', each, reads'⟩ := ih grows.sound (grown.trans grows.values)
      ((reads.mono grows.values).append one) merged
    refine ⟨grows.trans grows', ?_, ?_⟩
    · intro k mem
      rcases mem_cons.1 mem with rfl | mem
      · rw [isMerged]
        rfl
      · exact each k mem
    · rw [flatMap_cons, isMerged]
      simpa using reads'

/-- What is kept of a position. -/
def keep (base team draft : List Cell) (tops dops : List DiffOp) (edits : List (Edit Cell)) (i : Nat) :
    List Cell :=
  if deleted edits i then [] else (mergedCell base team draft tops dops i).toList

def mergeStep (env : Externals) (b : List Scalar) (ts ds : Nat → Option Nat)
    (state : List Scalar × Nat × Styles) (h : Hunk) : Option (List Scalar × Nat × Styles) := do
  let (result, styles) ←
    mergeKept env b ts ds (List.range' state.2.1 (h.start - state.2.1)) state.1 state.2.2
  return (result ++ h.insert, h.stop, styles)

theorem mergeHunks_eq (ts ds : Nat → Option Nat) (hunks : List Hunk) (styles : Styles) :
    mergeHunks env b ts ds hunks styles =
      ((hunks ++ [mk b.length b.length []]).foldlM (mergeStep env b ts ds) ([], 0, styles)).bind
        fun state => some (state.1, state.2.2) := rfl

variable {cursor last : Nat}

theorem mergeStep_spec (setting : Setting env values b t d bc tc dc tm dm tops dops) {h : Hunk}
    {inserted : List Cell}
    (sound : styles.Filed env) (grown : values <+: styles.values) (reads : Reads styles.values result cs)
    (insertion : Reads values h.insert inserted)
    (kept : ∀ i, cursor ≤ i → i < h.start → deleted all i = false)
    (merged : mergeStep env b (styleVia tm t) (styleVia dm d) (result, cursor, styles) h =
      some (out, last, after)) : last = h.stop ∧ styles.Grows env after ∧
      (∀ i, cursor ≤ i → i < h.start → (mergedCell bc tc dc tops dops i).isSome) ∧
      Reads after.values out (cs ++ ((range' cursor (h.start - cursor)).flatMap
        (keep bc tc dc tops dops all) ++ inserted)) := by
  simp only [mergeStep, bind_eq_bind, bind_eq_some_iff] at merged
  obtain ⟨⟨next, middle⟩, step, merged⟩ := merged
  cases merged
  obtain ⟨grows, each, reads'⟩ := mergeKept_spec setting sound grown reads step
  have same : ((range' cursor (h.start - cursor)).flatMap fun i =>
      (mergedCell bc tc dc tops dops i).toList) =
      (range' cursor (h.start - cursor)).flatMap (keep bc tc dc tops dops all) := by
    refine flatMap_congr fun i mem => ?_
    rw [mem_range'_1] at mem
    rw [keep, kept i (by omega) (by omega)]
    rfl
  refine ⟨rfl, grows, fun i le lt => each i (mem_range'_1.2 (by omega)), ?_⟩
  rw [same] at reads'
  rw [← append_assoc]
  exact reads'.append (insertion.mono (grown.trans grows.values))

theorem deleted_between {start stop : Nat} (outside : ∀ e ∈ all, e.stop ≤ start ∨ stop ≤ e.start) (i : Nat)
    (le : start ≤ i) (lt : i < stop) : deleted all i = false := by
  simp only [deleted, any_eq_false, Bool.and_eq_true, decide_eq_true_eq, not_and, not_lt]
  intro e mem _
  rcases outside e mem with before | beyond <;> omega

/-- From a position on, the loop over the rest of the blocks weaves them into the base. -/
theorem mergeLoop_spec (setting : Setting env values b t d bc tc dc tm dm tops dops) {hunks : List Hunk}
    (sound : styles.Filed env) (grown : values <+: styles.values) (reads : Reads styles.values result cs)
    (within : cursor ≤ b.length) (behind : ∀ e ∈ all, e.stop ≤ cursor ∨ e ∈ hunks.map (edit values))
    (known : ∀ h ∈ hunks, h.edit values ∈ all)
    (ahead : ∀ h ∈ hunks, cursor ≤ h.start ∧ h.start ≤ h.stop ∧ h.stop ≤ b.length)
    (read : ∀ h ∈ hunks, Reads values h.insert (h.edit values).insert)
    (ordered : hunks.Pairwise fun x y => x.stop ≤ y.start)
    (merged : (hunks ++ [mk b.length b.length []]).foldlM
      (mergeStep env b (styleVia tm t) (styleVia dm d)) (result, cursor, styles) =
        some (out, last, after)) :
    styles.Grows env after ∧
      (∀ i, cursor ≤ i → i < b.length → deleted all i = false → (mergedCell bc tc dc tops dops i).isSome) ∧
      Reads after.values out (cs ++ weave (keep bc tc dc tops dops all) (hunks.map (edit values)) cursor
        (b.length + 1 - cursor)) := by
  induction hunks generalizing styles result cs cursor with
  | nil =>
    simp only [nil_append, foldlM_cons, foldlM_nil, bind_eq_bind,
      bind_eq_some_iff] at merged
    obtain ⟨state, step, same⟩ := merged
    cases same
    have kept : ∀ i, cursor ≤ i → i < b.length → deleted all i = false :=
      deleted_between fun e mem => .inl ((behind e mem).resolve_right (by simp))
    obtain ⟨-, grows, each, reads'⟩ := mergeStep_spec setting sound grown reads .nil kept step
    refine ⟨grows, fun i le lt _ => each i le lt, ?_⟩
    have nothing : mergedCell bc tc dc tops dops b.length = none := by
      have beyond : bc[b.length]? = none := by
        rw [getElem?_eq_none_iff, setting.base.length]
      simp [mergedCell, beyond]
    have rest : weave (keep bc tc dc tops dops all) [] cursor (b.length + 1 - cursor) =
        (range' cursor (b.length - cursor)).flatMap (keep bc tc dc tops dops all) := by
      have count : b.length + 1 - cursor = (b.length - cursor) + 1 := by omega
      have stop : cursor + (b.length - cursor) = b.length := by omega
      rw [count, weave_skip (by simp), stop]
      simp [weave, keep, insertedAt, nothing]
    rw [map_nil, rest]
    simpa using reads'
  | cons h hunks ih =>
    rw [cons_append, foldlM_cons, bind_eq_bind, bind_eq_some_iff] at merged
    obtain ⟨⟨next, place, middle⟩, step, merged⟩ := merged
    obtain ⟨starts, forward, fits⟩ := ahead h (by simp)
    obtain ⟨later, ordered⟩ := pairwise_cons.1 ordered
    have kept : ∀ i, cursor ≤ i → i < h.start → deleted all i = false := by
      refine deleted_between fun e mem => (behind e mem).imp_right fun rest => ?_
      obtain ⟨g, isRest, rfl⟩ := mem_map.1 rest
      rcases mem_cons.1 isRest with rfl | isRest
      · exact le_refl _
      · exact forward.trans (later g isRest)
    have removed : ∀ i, h.start ≤ i → i < h.stop → deleted all i = true := fun i le lt =>
      any_eq_true.2 ⟨h.edit values, known h (by simp), by simp [edit, le, lt]⟩
    obtain ⟨rfl, grows, each, reads'⟩ :=
      mergeStep_spec setting sound grown reads (read h (by simp)) kept step
    obtain ⟨grows', each', reads''⟩ := ih grows.sound (grown.trans grows.values) reads' fits
      (by
        intro e mem
        rcases behind e mem with stop | rest
        · exact .inl (by omega)
        · rcases mem_cons.1 rest with rfl | rest
          · exact .inl (le_refl _)
          · exact .inr rest)
      (fun g mem => known g (by simp [mem]))
      (fun g mem => ⟨later g mem, (ahead g (by simp [mem])).2⟩)
      (fun g mem => read g (by simp [mem])) ordered merged
    refine ⟨grows.trans grows', ?_, ?_⟩
    · intro i le lt alive
      by_cases before : i < h.start
      · exact each i le before
      · by_cases inside : i < h.stop
        · rw [removed i (by omega) inside] at alive
          contradiction
        · exact each' i (by omega) lt alive
    · have rest : ∀ f ∈ hunks.map (edit values), (h.edit values).stop ≤ f.start := by
        intro f mem
        obtain ⟨g, isRest, rfl⟩ := mem_map.1 mem
        exact later g isRest
      have gone : ∀ i, h.start ≤ i → i < h.stop → keep bc tc dc tops dops all i = [] := fun i le lt => by
        rw [keep, if_pos (removed i le lt)]
      rw [map_cons, weave_cons starts forward fits rest gone]
      simpa [edit] using reads''

end Loop

section Result

variable {base team draft merged : Value}

/-- The script of edits between the characters and objects of two containers. -/
def script (env : Externals) (old new : Value) : List DiffOp :=
  textDiff env ((cells old).map fun c => ⟨c.ch, 0⟩) ((cells new).map fun c => ⟨c.ch, 0⟩)

def edits (env : Externals) (old new : Value) : List (Edit Cell) :=
  ((script env old new).filter fun op => op.tag ≠ .equal).map fun op =>
    ⟨op.old, op.old + op.oldLen, ((cells new).drop op.new).take op.newLen⟩

/-- The metadata of every position that both sides keep can be merged. -/
def Kept (env : Externals) (base team draft : Value) : Prop :=
  ∀ i < (cells base).length, deleted (edits env base team ++ edits env base draft) i = false →
    (mergedCell (cells base) (cells team) (cells draft) (script env base team)
      (script env base draft) i).isSome

/-- The base with what either script removes taken out and what either puts in at its own gap. A
position that both keep has the metadata of the three merged. -/
def woven (env : Externals) (base team draft : Value) : List Cell :=
  weave (keep (cells base) (cells team) (cells draft) (script env base team) (script env base draft)
      (edits env base team ++ edits env base draft))
    (edits env base team ++ edits env base draft) 0 ((cells base).length + 1)

structure KeepsBoth (env : Externals) (base team draft merged : Value) : Prop where
  kept : Kept env base team draft
  woven : cells merged = woven env base team draft

/-- The blocks of both sides in the order in which the merge goes over them. -/
abbrev sorted (ours theirs : List Hunk) : List Hunk :=
  (ours ++ theirs).insertionSort fun x y => x.start ≤ y.start

theorem textDiff_chars {a b a' b' : List Scalar} (left : a.map Scalar.ch = a'.map Scalar.ch)
    (right : b.map Scalar.ch = b'.map Scalar.ch) : textDiff env a b = textDiff env a' b' := by
  rw [textDiff, textDiff, left, right]

/-- One side of a merge: its tokens and alignment with the base. -/
structure Side (env : Externals) (values : List Value) (base side : Value) (b t : List Scalar)
    (map : List (Option Nat)) (hunks : List Hunk) : Prop where
  aligned : ∀ i j, map[i]? = some (some j) → target (script env base side) i = some j
  edits : hunks.map (edit values) = edits env base side
  reads : ∀ h ∈ hunks, Reads values h.insert (h.edit values).insert
  inside : ∀ h ∈ hunks, h.start ≤ h.stop ∧ h.stop ≤ b.length
  ordered : hunks.Pairwise fun x y => x.stop ≤ y.start

theorem filterMap_of_reads
    (reads : Reads values tokens cs) : tokens.filterMap (cellAt values) = cs := by
  have same : tokens.filterMap (cellAt values) = (tokens.map (cellAt values)).filterMap id := by
    rw [filterMap_map]
    rfl
  rw [same, reads, filterMap_map]
  exact filterMap_some

variable {b t : List Scalar}

theorem textDiff_of_reads
    (readBase : Reads values b (cells base)) (readSide : Reads values t (cells team)) :
    textDiff env b t = script env base team := by
  refine textDiff_chars ?_ ?_
  · rw [readBase.chars, map_map]
    rfl
  · rw [readSide.chars, map_map]
    rfl

theorem side_of_alignment
    (readBase : Reads values b (cells base)) (readSide : Reads values t (cells team)) :
    Side env values base team b t (alignment env b t).1 (alignment env b t).2 := by
  have ops : textDiff env b t = script env base team := textDiff_of_reads readBase readSide
  obtain ⟨ordered, bounds⟩ := covers_ordered (textDiff_covers env b t)
  have hunks : (alignment env b t).2 =
      ((script env base team).filter fun op => op.tag ≠ .equal).map (hunkOf t) := by
    rw [alignment_eq, align_hunks, nil_append, ops]
  rw [length_map] at bounds
  rw [ops] at ordered bounds
  rw [hunks]
  refine ⟨?_, ?_, ?_, ?_, ?_⟩
  · intro i j found
    rw [← ops, ← align_join, found]
    rfl
  · rw [map_map, edits]
    refine map_congr_left fun op _ => ?_
    simp [edit, hunkOf, filterMap_of_reads (readSide.slice op.new op.newLen)]
  · intro h mem
    obtain ⟨op, -, rfl⟩ := mem_map.1 mem
    have slice := readSide.slice op.new op.newLen
    simp only [edit, hunkOf, filterMap_of_reads slice]
    exact slice
  · intro h mem
    obtain ⟨op, isOp, rfl⟩ := mem_map.1 mem
    exact ⟨le_add_right _ _, (bounds op (mem_of_mem_filter isOp)).2⟩
  · rw [pairwise_map]
    exact ordered.filter _

theorem weave_sorted (keep : Nat → List Cell) (es : List (Edit Cell)) (start n : Nat) :
    weave keep (es.insertionSort byStart) start n = weave keep es start n := by
  refine flatMap_congr fun i _ => ?_
  rw [insertedAt_insertionSort]

section Sides

variable {b t d : List Scalar} {tm dm : List (Option Nat)} {th dh : List Hunk}

theorem sorted_edits (ours : Side env values base team b t tm th)
    (theirs : Side env values base draft b d dm dh) :
    (sorted th dh).map (edit values) =
      (edits env base team ++ edits env base draft).insertionSort byStart := by
  rw [← ours.edits, ← theirs.edits, ← map_append]
  exact map_insertionSort _ _ (edit values) (th ++ dh) fun _ _ _ _ => Iff.rfl

theorem sorted_ordered (ours : Side env values base team b t tm th)
    (theirs : Side env values base draft b d dm dh) (apart : anyOverlap th dh = false) :
    (sorted th dh).Pairwise fun x y => x.stop ≤ y.start := by
  have forward : ∀ h ∈ th ++ dh, h.start ≤ h.stop := by
    intro h mem
    rcases mem_append.1 mem with mem | mem
    · exact (ours.inside h mem).1
    · exact (theirs.inside h mem).1
  have scan := anyOverlap_complete forward ours.ordered theirs.ordered apart
  have before : ((th.map (edit values) ++ dh.map (edit values)).insertionSort byStart).Pairwise
      Before := by
    refine before_insertionSort ?_ (pairwise_map.2 ours.ordered) (pairwise_map.2 theirs.ordered) ?_
    · rw [← map_append]
      intro e mem
      obtain ⟨h, isHunk, rfl⟩ := mem_map.1 mem
      exact forward h isHunk
    · intro e mem f mem'
      obtain ⟨x, isOurs, rfl⟩ := mem_map.1 mem
      obtain ⟨y, isTheirs, rfl⟩ := mem_map.1 mem'
      exact apart_of_not_overlaps values (ours.inside x isOurs).1 (theirs.inside y isTheirs).1
        (scan x isOurs y isTheirs)
  rw [ours.edits, theirs.edits, ← sorted_edits ours theirs, pairwise_map] at before
  exact before

theorem forall_sorted {P : Hunk → Prop} (left : ∀ h ∈ th, P h) (right : ∀ h ∈ dh, P h) :
    ∀ h ∈ sorted th dh, P h := by
  intro h mem
  rw [sorted, mem_insertionSort, mem_append] at mem
  rcases mem with mem | mem
  · exact left h mem
  · exact right h mem

/-- The blocks of both sides, sorted into one list, are woven into the base. -/
theorem mergeHunks_weaves (readable : env.Readable) {after : Styles} {result : List Scalar}
    (sound : styles.Filed env) (readBase : Reads styles.values b (cells base))
    (readTeam : Reads styles.values t (cells team)) (readDraft : Reads styles.values d (cells draft))
    (ours : Side env styles.values base team b t tm th)
    (theirs : Side env styles.values base draft b d dm dh) (apart : anyOverlap th dh = false)
    (loop : mergeHunks env b (styleVia tm t) (styleVia dm d) (sorted th dh) styles = some (result, after)) :
    Kept env base team draft ∧ Reads after.values result (woven env base team draft) := by
  have setting : Setting env styles.values b t d (cells base) (cells team) (cells draft) tm dm
      (script env base team) (script env base draft) :=
    ⟨readable, readBase, readTeam, readDraft, ours.aligned, theirs.aligned⟩
  obtain ⟨⟨out, last, grown⟩, folded, same⟩ := Option.bind_eq_some_iff.1 loop
  cases same
  have edited (e : Edit Cell) : e ∈ (sorted th dh).map (edit styles.values) ↔
      e ∈ edits env base team ++ edits env base draft := by
    rw [sorted_edits ours theirs, mem_insertionSort]
  have ahead := forall_sorted (P := fun h => 0 ≤ h.start ∧ h.start ≤ h.stop ∧ h.stop ≤ b.length)
    (fun h mem => ⟨zero_le _, ours.inside h mem⟩) fun h mem => ⟨zero_le _, theirs.inside h mem⟩
  have insertions := forall_sorted ours.reads theirs.reads
  have start : Reads styles.values [] [] := .nil
  obtain ⟨-, kept, reads⟩ := mergeLoop_spec setting sound prefix_rfl start (zero_le _)
    (fun e mem => .inr ((edited e).2 mem)) (fun h mem => (edited _).1 (mem_map_of_mem mem))
    ahead insertions (sorted_ordered ours theirs apart) folded
  rw [sorted_edits ours theirs, weave_sorted, readBase.length, Nat.sub_zero, nil_append] at reads
  rw [readBase.length] at kept
  exact ⟨fun i lt alive => kept i (Nat.zero_le _) lt alive, reads⟩

end Sides

/-- The merge of three containers, once they are read into tokens and their properties are merged. -/
def mergeTokens (env : Externals) (properties : Except Unit (Option Value)) (b t d : List Scalar)
    (styles : Styles) : Option Value := do
  let out ← properties.toOption.join
  let (tm, th) := alignment env b t
  let (dm, dh) := alignment env b d
  if anyOverlap th dh then none
  else if th.any (restyled b dm d) ∨ dh.any (restyled b tm t) then none
  else
    let hunks := (th ++ dh).insertionSort fun x y => x.start ≤ y.start
    let (result, styles) ← mergeHunks env b (styleVia tm t) (styleVia dm d) hunks styles
    let content ← (children result styles.values true).toOption
    out.setIndex "content" (.array content)

structure Tokens (env : Externals) (base team draft : Value) (b t d : List Scalar)
    (styles : Styles) : Prop where
  ofBase : (inline env base .empty true).1 = some b
  ofTeam : (inline env team (inline env base .empty true).2 true).1 = some t
  ofDraft : inline env draft (inline env team (inline env base .empty true).2 true).2 true =
    (some d, styles)

section Tokens

variable {b t d : List Scalar}

theorem mergeInline_of_tokens (tokens : Tokens env base team draft b t d styles) :
    mergeInline env base team draft =
      mergeTokens env (mergeProperty (props base) (props team) (props draft)) b t d styles := by
  simp only [mergeInline, tokens.ofBase, tokens.ofTeam, tokens.ofDraft, Option.bind_eq_bind,
    Option.bind_some]
  rfl

theorem tokens_of_mergeInline (accepted : mergeInline env base team draft = some merged) :
    ∃ b t d styles, Tokens env base team draft b t d styles := by
  simp only [mergeInline, Option.bind_eq_bind, Option.bind_eq_some_iff] at accepted
  obtain ⟨b, first, t, second, d, third, -⟩ := accepted
  exact ⟨b, t, d, _, first, second, Prod.ext third rfl⟩

theorem Tokens.reads (tokens : Tokens env base team draft b t d styles) (readable : env.Readable) :
    styles.Filed env ∧ Reads styles.values b (cells base) ∧ Reads styles.values t (cells team) ∧
      Reads styles.values d (cells draft) := by
  obtain ⟨grows, readBase⟩ := inline_reads readable Styles.sound_empty (Prod.ext tokens.ofBase rfl)
  obtain ⟨grows', readTeam⟩ := inline_reads readable grows.sound (Prod.ext tokens.ofTeam rfl)
  obtain ⟨grows'', readDraft⟩ := inline_reads readable grows'.sound tokens.ofDraft
  exact ⟨grows''.sound, readBase.mono (grows'.values.trans grows''.values),
    readTeam.mono grows''.values, readDraft⟩

theorem mergeTokens_weaves (readable : env.Readable) {properties : Except Unit (Option Value)}
    (sound : styles.Filed env) (readBase : Reads styles.values b (cells base))
    (readTeam : Reads styles.values t (cells team)) (readDraft : Reads styles.values d (cells draft))
    (accepted : mergeTokens env properties b t d styles = some merged) :
    Kept env base team draft ∧ ∃ out result values content, properties.toOption.join = some out ∧
    children result values true = .ok content ∧
      content.flatMap childCells = woven env base team draft ∧
      out.setIndex "content" (.array content) = some merged := by
  simp only [mergeTokens, Option.bind_eq_bind, Option.bind_eq_some_iff] at accepted
  obtain ⟨out, isOut, accepted⟩ := accepted
  split at accepted
  · contradiction
  rename_i apart
  split at accepted
  · contradiction
  obtain ⟨⟨result, after⟩, loop, accepted⟩ := Option.bind_eq_some_iff.1 accepted
  obtain ⟨content, written, set⟩ := Option.bind_eq_some_iff.1 accepted
  obtain ⟨kept, reads⟩ := mergeHunks_weaves readable sound readBase readTeam readDraft
    (side_of_alignment readBase readTeam) (side_of_alignment readBase readDraft) (by simpa using apart) loop
  have written := Loop.toOption_eq_some.1 written
  exact ⟨kept, out, result, after.values, content, isOut, written, children_reads reads written, set⟩

end Tokens

theorem mergeInline_keeps_both (env : Externals) (readable : env.Readable) {base team draft merged : Value}
    (accepted : mergeInline env base team draft = some merged) :
    KeepsBoth env base team draft merged := by
  obtain ⟨b, t, d, styles, tokens⟩ := tokens_of_mergeInline accepted
  rw [mergeInline_of_tokens tokens] at accepted
  obtain ⟨sound, readBase, readTeam, readDraft⟩ := tokens.reads readable
  obtain ⟨kept, out, result, values, content, -, -, isWoven, set⟩ :=
    mergeTokens_weaves readable sound readBase readTeam readDraft accepted
  refine ⟨kept, ?_⟩
  rw [cells, Json.index_setIndex set, if_pos rfl, Json.asArray_array]
  exact isWoven

theorem mergeProperty_eq : mergeProperty = fun base team draft =>
    if draft = base ∨ draft = team then .ok team
    else if team = base then .ok draft
    else mergeProperty base team draft := by
  funext base team draft
  split
  · rename_i same
    rw [mergeProperty, if_pos same]
  · rename_i differs
    split
    · rename_i same
      rw [mergeProperty, if_neg differs, if_pos same]
    · rfl

/-- One replacement between the common ends of two texts that differ. -/
def endsDiff (a b : List Char) : List DiffOp :=
  let p := commonPrefixLen a b
  let q := commonPrefixLen (a.drop p).reverse (b.drop p).reverse
  if 0 < a.length - p - q + (b.length - p - q) then coarseOps a b else coarseDiff a b

theorem endsDiff_covers (a b : List Char) : CoversFrom a b 0 0 (endsDiff a b) := by
  unfold endsDiff
  dsimp only
  split
  · rename_i changed
    exact commonEnds_covers changed
  · exact coarseDiff_covers a b

def unaryText : Int → List Char
  | .ofNat n => '+' :: List.replicate n '1'
  | .negSucc n => '-' :: List.replicate n '1'

def plainNumber : Number → String
  | .int i => String.ofList (unaryText i)
  | .float q => String.ofList ('e' :: (List.replicate q.den '1' ++ unaryText q.num))

def plainString (s : String) : String :=
  String.ofList ('"' :: (s.toList.flatMap (fun c => ['x', c]) ++ ['"']))

def sampleText : Externals where
  numberText := plainNumber
  stringText := plainString
  sha256Hex s := s
  captureDiff := endsDiff
  capture_covers := endsDiff_covers

theorem unaryText_injective : Function.Injective unaryText := by
  intro i j same
  cases i <;> cases j <;> simp_all [unaryText]

theorem ones_inj {n m : Nat} {i j : Int}
    (same : replicate n '1' ++ unaryText i = replicate m '1' ++ unaryText j) :
    n = m ∧ unaryText i = unaryText j := by
  have signed (i : Int) : ∃ c rest, unaryText i = c :: rest ∧ c ≠ '1' := by
    cases i with
    | ofNat n => exact ⟨_, _, rfl, by decide⟩
    | negSucc n => exact ⟨_, _, rfl, by decide⟩
  obtain ⟨c, rest, first, notOne⟩ := signed i
  obtain ⟨c', rest', second, notOne'⟩ := signed j
  rw [first, second] at same ⊢
  induction n generalizing m with
  | zero =>
    cases m with
    | zero => exact ⟨rfl, same⟩
    | succ m => exact absurd (cons.inj same).1 notOne
  | succ n ih =>
    cases m with
    | zero => exact absurd (cons.inj same).1.symm notOne'
    | succ m =>
      obtain ⟨rfl, texts⟩ := ih (cons.inj same).2
      exact ⟨rfl, texts⟩

open String (toList_ofList)

theorem plainNumber_injective : Function.Injective plainNumber := by
  intro n m same
  have texts := congrArg String.toList same
  cases n with
  | int i =>
    cases m with
    | int j =>
      rw [plainNumber, plainNumber, toList_ofList, toList_ofList] at texts
      rw [unaryText_injective texts]
    | float q =>
      rw [plainNumber, plainNumber, toList_ofList, toList_ofList] at texts
      cases i <;> simp [unaryText] at texts
  | float q =>
    cases m with
    | int j =>
      rw [plainNumber, plainNumber, toList_ofList, toList_ofList] at texts
      cases j <;> simp [unaryText] at texts
    | float r =>
      rw [plainNumber, plainNumber, toList_ofList, toList_ofList] at texts
      obtain ⟨dens, nums⟩ := ones_inj (cons.inj texts).2
      rw [Rat.ext (unaryText_injective nums) dens]

theorem pairs_inj {l m x y : List Char} (same : l.flatMap (fun c => ['x', c]) ++ '"' :: x =
    m.flatMap (fun c => ['x', c]) ++ '"' :: y) : l = m ∧ x = y := by
  induction l generalizing m with
  | nil =>
    cases m with
    | nil => exact ⟨rfl, (cons.inj same).2⟩
    | cons c m => exact absurd (cons.inj same).1 (by decide)
  | cons c l ih =>
    cases m with
    | nil => exact absurd (cons.inj same).1 (by decide)
    | cons c' m =>
      obtain ⟨chars, rests⟩ := cons.inj (cons.inj same).2
      obtain ⟨lists, ends⟩ := ih rests
      exact ⟨by rw [chars, lists], ends⟩

theorem sampleText_readable : sampleText.Readable where
  numbers := plainNumber_injective
  numeric n := by
    have numeric (i : Int) : ∀ c ∈ unaryText i, isNumeric c := by
      cases i <;> simp [unaryText, isNumeric]
    cases n with
    | int i =>
      refine ⟨?_, fun c mem => numeric i c (by simpa [sampleText, plainNumber] using mem)⟩
      cases i <;> simp [sampleText, plainNumber, unaryText]
    | float q =>
      refine ⟨by simp [sampleText, plainNumber], fun c mem => ?_⟩
      simp only [sampleText, plainNumber, toList_ofList, mem_cons, mem_append,
        mem_replicate] at mem
      rcases mem with rfl | ⟨-, rfl⟩ | mem
      · decide
      · decide
      · exact numeric q.num c mem
  quoted s := by simp [sampleText, plainString]
  strings s t x y same := by
    simp only [sampleText, plainString, toList_ofList, cons_append, append_assoc,
      cons.injEq, true_and] at same
    obtain ⟨lists, ends⟩ := pairs_inj same
    exact ⟨String.toList_inj.1 lists, ends⟩

def sampleRun (text : String) (bold : Bool) : Value :=
  .fields ((if bold then [("marks", .array [.fields [("type", .str "bold")]])] else []) ++
    [("type", .str "text"), ("text", .str text)])

def sampleParagraph (runs : List Value) : Value :=
  .fields [("type", .str "paragraph"), ("content", .array runs)]

/-- One side puts a character in front, the other sets the last one bold and goes on after it. -/
theorem both_ends_merge : ∃ merged, mergeInline sampleText (sampleParagraph [sampleRun "ab" false])
      (sampleParagraph [sampleRun "xab" false])
      (sampleParagraph [sampleRun "a" false, sampleRun "by" true]) = some merged ∧
    KeepsBoth sampleText (sampleParagraph [sampleRun "ab" false]) (sampleParagraph [sampleRun "xab" false])
      (sampleParagraph [sampleRun "a" false, sampleRun "by" true]) merged := by
  have accepted : mergeInline sampleText (sampleParagraph [sampleRun "ab" false])
      (sampleParagraph [sampleRun "xab" false])
      (sampleParagraph [sampleRun "a" false, sampleRun "by" true]) =
        some (sampleParagraph [sampleRun "xa" false, sampleRun "by" true]) := by
    unfold mergeInline mergeHunks mergeKept mergeScalar
    rw [mergeProperty_eq]
    decide +kernel
  exact ⟨_, accepted, mergeInline_keeps_both sampleText sampleText_readable accepted⟩

end Result

end Dynodoc.RichText
