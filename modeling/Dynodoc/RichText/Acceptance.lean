import Dynodoc.RichText.Weave

/-! When a merge of a text container is accepted, in terms of what the tokens stand for: style
numbers are equal exactly when the metadata are, and the merge fails for what the three containers
hold, not for the numbers that interning gave out. -/
namespace Dynodoc.RichText
open Std (ExtTreeMap)
open Loop Edits List

variable {env : Externals} {map : List (Option Nat)} {tokens other : List Scalar} {cs : List Cell}
  {i : Nat} {values : List Value} {ops : List DiffOp} {h : Hunk}

section Exact

variable {styles after : Styles}

/-- The index finds every style of the table, and nothing else. -/
def Styles.Exact (env : Externals) (styles : Styles) : Prop :=
  ∀ key i, styles.lookup[key]? = some i ↔ ∃ v, styles.values[i]? = some v ∧ canonicalJson env v = key

theorem Styles.Exact.sound (exact : styles.Exact env) : styles.Filed env :=
  fun key i found => (exact key i).1 found

theorem Styles.exact_empty : Styles.empty.Exact env := by
  intro key i
  simp [Styles.empty]

variable (exact : styles.Exact env)

include exact

variable {j : Nat}

theorem Styles.Exact.style_eq {v : Value}
    (first : styles.values[i]? = some v) (second : styles.values[j]? = some v) : i = j := by
  have left := (exact (canonicalJson env v) i).2 ⟨v, first, rfl⟩
  have right := (exact (canonicalJson env v) j).2 ⟨v, second, rfl⟩
  rw [left] at right
  exact Option.some.inj right

theorem intern_exact (v : Value) : (styles.intern env v).2.Exact env := by
  unfold Styles.intern
  split
  · exact exact
  · rename_i new
    intro key i
    rw [OrderedMap.getElem?_insert]
    constructor
    · intro found
      split at found
      · rename_i same
        cases found
        exact ⟨v, by simp, same.symm⟩
      · obtain ⟨w, value, same⟩ := (exact key i).1 found
        exact ⟨w, getElem?_grown (prefix_append _ _) value, same⟩
    · rintro ⟨w, value, same⟩
      rw [getElem?_append] at value
      split at value
      · have found := (exact key i).2 ⟨w, value, same⟩
        split
        · rename_i here
          rw [here, new] at found
          contradiction
        · exact found
      · rename_i last
        obtain ⟨bound, rfl⟩ := List.getElem?_eq_some_iff.1 value
        have zero : i - styles.values.length = 0 := by simpa using bound
        simp only [zero, getElem_cons_zero] at same
        rw [if_pos same.symm]
        congr 1
        omega

theorem inlineChild_exact (atoms : Bool) (out : List Scalar) (child : Value) :
    (inlineChild env atoms out styles child).2.Exact env := by
  unfold inlineChild
  split
  · split
    · exact exact
    · split
      · exact exact
      · exact intern_exact exact child
  · split
    · exact intern_exact exact _
    · exact exact

theorem inlineChildren_exact (atoms : Bool) (out : List Scalar)
    (items : List Value) : (inlineChildren env atoms out styles items).2.Exact env := by
  induction items generalizing out styles with
  | nil => exact exact
  | cons child items ih =>
    rw [inlineChildren]
    have first := inlineChild_exact exact atoms out child
    split
    · rename_i refused
      rw [refused] at first
      exact first
    · rename_i read
      rw [read] at first
      exact ih first _

theorem inline_exact (v : Value) (atoms : Bool) :
    (inline env v styles atoms).2.Exact env := by
  unfold inline
  split
  · split
    · exact exact
    · split
      · exact exact
      · exact inlineChildren_exact exact atoms [] _
  · exact exact

end Exact

section Length

variable {atoms : Bool} {out out' : List Scalar}

theorem pushText_length {style style' : Nat} (length : out.length = out'.length) (text : String) :
    (pushText atoms style out text).map List.length =
      (pushText atoms style' out' text).map List.length := by
  unfold pushText
  generalize text.toList = chars
  induction chars generalizing out out' with
  | nil => exact congrArg some length
  | cons ch chars ih =>
    rw [foldlM_cons, foldlM_cons, length]
    split
    · rfl
    · exact ih (by simp [length])

theorem inlineChild_length (length : out.length = out'.length)
    (styles styles' : Styles) (child : Value) :
    (inlineChild env atoms out styles child).1.map List.length =
      (inlineChild env atoms out' styles' child).1.map List.length := by
  unfold inlineChild
  split
  · split
    · rfl
    rw [length]
    split
    · rfl
    · simp [length]
  · split
    · exact pushText_length length _
    · rfl

theorem inlineChildren_length (length : out.length = out'.length)
    (styles styles' : Styles) (items : List Value) :
    (inlineChildren env atoms out styles items).1.map List.length =
      (inlineChildren env atoms out' styles' items).1.map List.length := by
  induction items generalizing out out' styles styles' with
  | nil => exact congrArg some length
  | cons child items ih =>
    have step := @inlineChild_length env atoms out out' length styles styles' child
    rw [inlineChildren, inlineChildren]
    split <;> split
    · rfl
    · rename_i refused _ _ _ read
      simp [refused, read] at step
    · rename_i read _ _ refused
      simp [refused, read] at step
    · rename_i read _ _ _ read'
      simp only [read, read', Option.map_some, Option.some.injEq] at step
      exact ih step _ _

/-- Whether a container can be read does not depend on the styles met before. -/
theorem inline_isSome (v : Value) (styles styles' : Styles) :
    (inline env v styles true).1.isSome = (inline env v styles' true).1.isSome := by
  have same : (inline env v styles true).1.map length = (inline env v styles' true).1.map length := by
    unfold inline
    split
    · split
      · rfl
      split
      · rfl
      · exact inlineChildren_length rfl _ _ _
    · rfl
  have some := congrArg Option.isSome same
  simpa using some

end Length

/-- A cell that can be written: a character of a text node, or an object in its own place. -/
def Cell.Writable (c : Cell) : Prop :=
  ∃ metadata, c.metadata = .object metadata ∧
    (metadata["type"]? ≠ some (.str "text") → c.ch = atom) ∧
    (metadata["type"]? = some (.str "text") → "text" ∉ metadata ∧ "content" ∉ metadata)

theorem childrenOfRun_succeeds (one : ∀ t ∈ tokens, ∀ first ∈ tokens.head?, t.style = first.style)
    (reads : Reads values tokens cs) :
    (∃ content, childrenOfRun values true tokens = .ok content) ↔ ∀ c ∈ cs, c.Writable := by
  cases tokens with
  | nil =>
    cases cs with
    | nil => simp [childrenOfRun]
    | cons c cs => contradiction
  | cons first rest =>
    obtain ⟨cell, -, -, value⟩ := reads.at (i := 0) rfl
    have styled : ∀ t ∈ first :: rest, values[t.style]? = some cell.metadata := by
      intro t mem
      rw [one t mem first rfl, value]
    have same := cells_of_run styled reads
    have each : (∀ c ∈ cs, c.Writable) ↔ ∀ t ∈ first :: rest, Cell.Writable ⟨t.ch, cell.metadata⟩ := by
      rw [same]
      simp
    rw [each]
    simp only [childrenOfRun, value, Option.bind_some]
    split
    · rename_i shape
      constructor
      · rintro ⟨_, refused⟩
        contradiction
      · intro writable
        obtain ⟨metadata, isObject, -⟩ := writable first (by simp)
        rw [isObject] at shape
        simp at shape
    · rename_i metadata shape
      rw [Json.asObject_eq_some] at shape
      simp only [Cell.Writable, shape, Json.object_inj]
      split
      · rename_i leaf
        rw [mapM_succeeds]
        refine forall₂_congr fun t _ => ?_
        constructor
        · rintro ⟨_, written⟩
          split at written
          · rename_i isAtom
            exact ⟨metadata, rfl, fun _ => isAtom, fun text => absurd text leaf.2⟩
          · contradiction
        · rintro ⟨_, rfl, isAtom, -⟩
          exact ⟨_, if_pos (isAtom leaf.2)⟩
      · rename_i text
        have isText : metadata["type"]? = some (.str "text") := by simpa using text
        split
        · rename_i refused
          constructor
          · rintro ⟨_, written⟩
            contradiction
          · intro writable
            obtain ⟨_, rfl, -, absent⟩ := writable first (by simp)
            have := absent isText
            simp [isText, this] at refused
        · rename_i fine
          simp only [isText, ne_eq, not_true_eq_false, false_or, not_or] at fine
          constructor
          · intro _ t _
            exact ⟨metadata, rfl, fun other => absurd isText other, fun _ => fine⟩
          · intro _
            exact ⟨_, rfl⟩

/-- Tokens can be written when every cell that they stand for can. -/
theorem children_succeeds (reads : Reads values tokens cs) :
    (∃ content, children tokens values true = .ok content) ↔ ∀ c ∈ cs, c.Writable := by
  have flat : (∃ content, children tokens values true = .ok content) ↔
      ∃ runs, (tokens.splitBy fun a b => a.style = b.style).mapM (childrenOfRun values true) =
      .ok runs := by
    constructor
    · rintro ⟨content, written⟩
      obtain ⟨runs, mapped, -⟩ := bind_eq_ok.1 written
      exact ⟨runs, mapped⟩
    · rintro ⟨runs, mapped⟩
      exact ⟨runs.flatten, bind_eq_ok.2 ⟨runs, mapped, rfl⟩⟩
  rw [flat, mapM_succeeds]
  have styled := same_style tokens
  rw [← flatten_splitBy (fun a b => a.style = b.style) tokens] at reads
  generalize tokens.splitBy (fun a b => a.style = b.style) = groups at styled reads
  induction groups generalizing cs with
  | nil =>
    cases cs with
    | nil => simp
    | cons c cs => contradiction
  | cons run groups ih =>
    obtain ⟨left, right, rfl, here, later⟩ := reads.split
    have rest := ih (fun run mem => styled run (mem_cons_of_mem _ mem)) later
    rw [forall_mem_cons, forall_mem_append]
    exact and_congr (childrenOfRun_succeeds (styled run (by simp)) here) rest

theorem children_filled {content : List Value} (written : children tokens values true = .ok content) :
    ∀ item ∈ content, item.index "type" = .str "text" →
      ∃ s, item.get? "text" = some (.str s) ∧ s ≠ "" := by
  obtain ⟨runs, mapped, same⟩ := bind_eq_ok.1 written
  cases same
  intro item mem isText
  obtain ⟨nodes, isRun, mem⟩ := mem_flatten.1 mem
  obtain ⟨run, _, made⟩ := exists_left_of_mem (mapM_eq_ok.1 mapped) isRun
  unfold childrenOfRun at made
  split at made
  · cases made
    contradiction
  · rename_i first rest
    split at made
    · contradiction
    rename_i metadata _
    split at made
    · rename_i leaf
      obtain ⟨t, _, one⟩ := exists_left_of_mem (mapM_eq_ok.1 made) mem
      split at one
      · cases one
        rw [Json.index] at isText
        cases found : metadata["type"]? with
        | none => simp [found] at isText
        | some v => simp [found] at isText; exact absurd (by rw [found, isText]) leaf.2
      · contradiction
    · obtain ⟨-, made⟩ := guard_eq_ok.1 made
      cases made
      rw [mem_singleton] at mem
      subst mem
      refine ⟨_, by rw [Json.get?_object, ExtTreeMap.getElem?_insert_self], fun empty => ?_⟩
      have := congrArg String.toList empty
      simp at this

section Positions

variable {b t d : List Scalar} {bc tc dc : List Cell}
  {tm dm : List (Option Nat)} {tops dops : List DiffOp}
variable {ts ds : Nat → Option Nat}

/-- The positions of a text of this length at or next to a changed block. -/
def Touched (length start stop i : Nat) : Prop :=
  if start = stop then start - 1 ≤ i ∧ i < min (start + 1) length else start ≤ i ∧ i < stop

/-- A position that the other side keeps with new metadata. -/
def Restyled (base other : List Cell) (ops : List DiffOp) (i : Nat) : Prop :=
  ∃ old cell, base[i]? = some old ∧ (target ops i).bind (other[·]?) = some cell ∧
    old.metadata ≠ cell.metadata

def Apartness (values : List Value) : Prop :=
  ∀ (i j : Nat) (v : Value), values[i]? = some v → values[j]? = some v → i = j

theorem styleVia_eq_some
    {style : Nat} (reads : Reads values tokens cs) (joined : map[i]?.join = target ops i) :
    styleVia map tokens i = some style →
      ∃ cell, (target ops i).bind (cs[·]?) = some cell ∧ values[style]? = some cell.metadata := by
  refine fun via => styleVia_reads reads (fun j found => ?_) via
  rw [← joined, found]
  rfl

theorem Reads.style_at {cell : Cell} (reads : Reads values tokens cs) (here : cs[j]? = some cell) :
    ∃ inside : j < tokens.length, values[tokens[j].style]? = some cell.metadata := by
  have inside : j < tokens.length := by
    rw [reads.length]
    exact (List.getElem?_eq_some_iff.1 here).1
  obtain ⟨other, isOther, -, value⟩ := reads.at (getElem?_eq_getElem inside)
  rw [here] at isOther
  cases isOther
  exact ⟨inside, value⟩

theorem styleVia_of_cell {cell : Cell} (reads : Reads values tokens cs)
    (joined : map[i]?.join = target ops i)
    (here : (target ops i).bind (cs[·]?) = some cell) :
    ∃ style, styleVia map tokens i = some style ∧ values[style]? = some cell.metadata := by
  obtain ⟨j, found, isCell⟩ := Option.bind_eq_some_iff.1 here
  obtain ⟨inside, value⟩ := reads.style_at isCell
  refine ⟨tokens[j].style, ?_, value⟩
  simp [styleVia, joined, found, styleAt, getElem?_eq_getElem inside]

/-- Whether the other side gave a position a style of its own. -/
def styledAnew (b : List Scalar) (map : List (Option Nat)) (other : List Scalar) (i : Nat) : Bool :=
  (styleVia map other i).any fun style => styleAt b i ≠ some style

theorem restyled_eq (map : List (Option Nat)) (other : List Scalar) (h : Hunk) :
    restyled b map other h = (if h.start = h.stop then
      range' (h.start - 1) (min (h.start + 1) b.length - (h.start - 1))
      else range' h.start (h.stop - h.start)).any (styledAnew b map other) := by
  unfold restyled
  dsimp only
  congr 1
  funext i
  unfold styledAnew
  cases styleVia map other i <;> rfl

theorem restyled_eq_true (inside : h.stop ≤ b.length) : restyled b map other h = true ↔
      ∃ i, Touched b.length h.start h.stop i ∧ i < b.length ∧ styledAnew b map other i = true := by
  rw [restyled_eq, any_eq_true]
  unfold Touched
  split
  · simp only [mem_range'_1]
    constructor
    · rintro ⟨i, range, styled⟩
      exact ⟨i, by omega, by omega, styled⟩
    · rintro ⟨i, range, within, styled⟩
      exact ⟨i, by omega, styled⟩
  · simp only [mem_range'_1]
    constructor
    · rintro ⟨i, range, styled⟩
      exact ⟨i, by omega, by omega, styled⟩
    · rintro ⟨i, range, within, styled⟩
      exact ⟨i, by omega, styled⟩

theorem restyled_iff {oc : List Cell}
    (apart : Apartness values) (base : Reads values b bc) (reads : Reads values other oc)
    (joined : ∀ i, map[i]?.join = target ops i) (inside : h.stop ≤ b.length) :
    restyled b map other h = true ↔ ∃ i, Touched b.length h.start h.stop i ∧ Restyled bc oc ops i := by
  rw [restyled_eq_true inside]
  refine exists_congr fun i => and_congr_right fun _ => ?_
  constructor
  · rintro ⟨within, differs⟩
    obtain ⟨old, isOld, -, value⟩ := base.at (getElem?_eq_getElem within)
    unfold styledAnew at differs
    cases via : styleVia map other i with
    | none => simp [via] at differs
    | some style =>
      obtain ⟨cell, isCell, value'⟩ := styleVia_eq_some reads (joined i) via
      refine ⟨old, cell, isOld, isCell, fun same => ?_⟩
      simp only [via, styleAt, getElem?_eq_getElem within, Option.map_some, Option.any_some,
        decide_eq_true_eq, ne_eq, Option.some.injEq] at differs
      rw [same] at value
      exact differs (apart _ _ _ value value')
  · rintro ⟨old, cell, isOld, isCell, differs⟩
    obtain ⟨within, value⟩ := base.style_at isOld
    obtain ⟨style, via, value'⟩ := styleVia_of_cell reads (joined i) isCell
    refine ⟨within, ?_⟩
    simp only [styledAnew, via, styleAt, getElem?_eq_getElem within, Option.map_some, Option.any_some,
      decide_eq_true_eq, ne_eq, Option.some.injEq]
    intro same
    rw [same, value'] at value
    exact differs (Option.some.inj value).symm

/-- A position that both sides keep can be merged: its metadata merge, and an object is not
changed in two ways. -/
def CanMerge (base team draft : List Cell) (tops dops : List DiffOp) (i : Nat) : Prop :=
  ∃ old ours theirs metadata, base[i]? = some old ∧ (target tops i).bind (team[·]?) = some ours ∧
    (target dops i).bind (draft[·]?) = some theirs ∧
    mergeProperty (some old.metadata) (some ours.metadata) (some theirs.metadata) = .ok (some metadata) ∧
    ¬ (old.ch = atom ∧ ours.metadata ≠ old.metadata ∧ theirs.metadata ≠ old.metadata ∧
      ours.metadata ≠ theirs.metadata)

/-- The fixed data of one merge, read exactly. -/
structure ExactSetting (env : Externals) (values : List Value) (b t d : List Scalar) (bc tc dc : List Cell)
    (tm dm : List (Option Nat)) (tops dops : List DiffOp) : Prop where
  base : Reads values b bc
  team : Reads values t tc
  draft : Reads values d dc
  joined : ∀ i, tm[i]?.join = target tops i
  joined' : ∀ i, dm[i]?.join = target dops i
  apart : Apartness values

variable {styles after : Styles} {result : List Scalar}

theorem Apartness.eq_iff (apart : Apartness values) {v w : Value} (first : values[i]? = some v)
    (second : values[j]? = some w) : i = j ↔ v = w := by
  constructor
  · rintro rfl
    rw [first] at second
    exact Option.some.inj second
  · rintro rfl
    exact apart i j v first second

theorem intern_extends (styles : Styles) (v : Value) :
    styles.values <+: (styles.intern env v).2.values := by
  unfold Styles.intern
  split
  · exact prefix_rfl
  · exact prefix_append _ _

theorem mergeScalar_succeeds (setting : ExactSetting env values b t d bc tc dc tm dm tops dops)
    (grown : values <+: styles.values) (i : Nat) :
    (mergeScalar env b (styleVia tm t) (styleVia dm d) styles i).isSome ↔
    CanMerge bc tc dc tops dops i := by
  constructor
  · intro merged
    obtain ⟨⟨token, after⟩, merged⟩ := Option.isSome_iff_exists.1 merged
    unfold mergeScalar at merged
    simp only [Option.bind_eq_bind, Option.bind_eq_some_iff] at merged
    obtain ⟨ts, viaTeam, ds, viaDraft, old, here, merged⟩ := merged
    obtain ⟨ours, isOurs, ourValue⟩ := styleVia_eq_some setting.team (setting.joined i) viaTeam
    obtain ⟨theirs, isTheirs, theirValue⟩ := styleVia_eq_some setting.draft (setting.joined' i) viaDraft
    obtain ⟨cell, isCell, sameChar, value⟩ := setting.base.at here
    split at merged
    · contradiction
    rename_i fine
    rw [← sameChar, ne_eq, ne_eq, ne_eq, setting.apart.eq_iff ourValue value,
      setting.apart.eq_iff theirValue value, setting.apart.eq_iff ourValue theirValue] at fine
    rw [getElem?_grown grown value, getElem?_grown grown ourValue,
      getElem?_grown grown theirValue] at merged
    split at merged
    · rename_i metadata property
      exact ⟨cell, ours, theirs, metadata, isCell, isOurs, isTheirs, property, fine⟩
    · contradiction
  · rintro ⟨cell, ours, theirs, metadata, isCell, isOurs, isTheirs, property, fine⟩
    obtain ⟨ts, viaTeam, ourValue⟩ := styleVia_of_cell setting.team (setting.joined i) isOurs
    obtain ⟨ds, viaDraft, theirValue⟩ := styleVia_of_cell setting.draft (setting.joined' i) isTheirs
    have inside : i < b.length := by
      rw [setting.base.length]
      exact (List.getElem?_eq_some_iff.1 isCell).1
    obtain ⟨cell', isCell', sameChar, value⟩ := setting.base.at (getElem?_eq_getElem inside)
    rw [isCell] at isCell'
    cases isCell'
    unfold mergeScalar
    simp only [viaTeam, viaDraft, getElem?_eq_getElem inside, Option.bind_eq_bind, Option.bind_some]
    rw [if_neg]
    · simp only [getElem?_grown grown value, getElem?_grown grown ourValue, getElem?_grown grown theirValue,
        property]
      rfl
    · rw [← sameChar, ne_eq, ne_eq, ne_eq, setting.apart.eq_iff ourValue value,
        setting.apart.eq_iff theirValue value, setting.apart.eq_iff ourValue theirValue]
      exact fine

theorem mergeScalar_extends {token : Scalar}
    (merged : mergeScalar env b ts ds styles i = some (token, after)) : styles.values <+: after.values := by
  unfold mergeScalar at merged
  simp only [Option.bind_eq_bind, Option.bind_eq_some_iff] at merged
  obtain ⟨_, -, _, -, _, -, merged⟩ := merged
  split at merged
  · contradiction
  split at merged
  · cases merged
    exact intern_extends _ _
  · contradiction

theorem mergeKept_cons (i : Nat) (positions : List Nat) :
    mergeKept env b ts ds (i :: positions) result styles =
      (mergeScalar env b ts ds styles i).bind fun step =>
        mergeKept env b ts ds positions (result ++ [step.1]) step.2 := by
  unfold mergeKept
  cases scalar : mergeScalar env b ts ds styles i with
  | none => simp [scalar]
  | some step => simp [scalar]

theorem mergeKept_extends {positions : List Nat} {out : List Scalar}
    (merged : mergeKept env b ts ds positions result styles = some (out, after)) :
    styles.values <+: after.values := by
  induction positions generalizing result styles with
  | nil =>
    cases merged
    exact prefix_rfl
  | cons i positions ih =>
    rw [mergeKept_cons, Option.bind_eq_some_iff] at merged
    obtain ⟨step, scalar, merged⟩ := merged
    exact (mergeScalar_extends scalar).trans (ih merged)

theorem mergeKept_succeeds (setting : ExactSetting env values b t d bc tc dc tm dm tops dops)
    (grown : values <+: styles.values) (result : List Scalar) (positions : List Nat) :
    (mergeKept env b (styleVia tm t) (styleVia dm d) positions result styles).isSome ↔
      ∀ i ∈ positions, CanMerge bc tc dc tops dops i := by
  induction positions generalizing result styles with
  | nil => simp [mergeKept]
  | cons i positions ih =>
    rw [mergeKept_cons, forall_mem_cons, ← mergeScalar_succeeds setting grown i]
    cases scalar : mergeScalar env b (styleVia tm t) (styleVia dm d) styles i with
    | none => simp
    | some step =>
      have rest := ih (grown.trans (mergeScalar_extends scalar)) (result ++ [step.1])
      rw [Option.bind_some, rest]
      simp

/-- From a position on, the loop over the rest of the blocks succeeds when every position that it
keeps can be merged. -/
theorem mergeLoop_succeeds (setting : ExactSetting env values b t d bc tc dc tm dm tops dops)
    (grown : values <+: styles.values) (result : List Scalar) {hunks : List Hunk} {cursor : Nat}
    (ahead : ∀ h ∈ hunks, cursor ≤ h.start ∧ h.start ≤ h.stop ∧ h.stop ≤ b.length)
    (ordered : hunks.Pairwise fun x y => x.stop ≤ y.start) :
    ((hunks ++ [Hunk.mk b.length b.length []]).foldlM
      (mergeStep env b (styleVia tm t) (styleVia dm d)) (result, cursor, styles)).isSome ↔
      ∀ i, cursor ≤ i → i < b.length → (∀ h ∈ hunks, ¬ (h.start ≤ i ∧ i < h.stop)) →
        CanMerge bc tc dc tops dops i := by
  induction hunks generalizing styles result cursor with
  | nil =>
    rw [nil_append, foldlM_cons, mergeStep]
    have kept := mergeKept_succeeds setting grown result
      (range' cursor (b.length - cursor))
    constructor
    · intro merged i le lt _
      refine kept.1 ?_ i (mem_range'_1.2 (by omega))
      cases done : mergeKept env b (styleVia tm t) (styleVia dm d)
          (range' cursor (b.length - cursor)) result styles with
      | none => simp [done] at merged
      | some state => rfl
    · intro each
      have done := kept.2 fun i mem => by
        rw [mem_range'_1] at mem
        exact each i (by omega) (by omega) (by simp)
      obtain ⟨state, done⟩ := Option.isSome_iff_exists.1 done
      simp [done]
  | cons h hunks ih =>
    obtain ⟨starts, forward, fits⟩ := ahead h (by simp)
    obtain ⟨later, ordered⟩ := pairwise_cons.1 ordered
    have kept := mergeKept_succeeds setting grown result
      (range' cursor (h.start - cursor))
    rw [cons_append, foldlM_cons, mergeStep]
    cases done : mergeKept env b (styleVia tm t) (styleVia dm d)
        (range' cursor (h.start - cursor)) result styles with
    | none =>
      rw [done] at kept
      simp only [Option.isSome_none, Bool.false_eq_true, false_iff, not_forall] at kept
      obtain ⟨i, mem, cannot⟩ := kept
      rw [mem_range'_1] at mem
      simp only [Option.bind_eq_bind, Option.bind_none, Option.isSome_none, Bool.false_eq_true, false_iff]
      intro each
      refine cannot (each i (by omega) (by omega) fun g isHunk => ?_)
      rcases mem_cons.1 isHunk with rfl | isHunk
      · omega
      have := later g isHunk
      omega
    | some state =>
      rw [done] at kept
      have each := kept.1 rfl
      have rest := ih (grown.trans (mergeKept_extends done)) (state.1 ++ h.insert)
        (fun g mem => ⟨later g mem, (ahead g (by simp [mem])).2⟩) ordered
      simp only [Option.bind_eq_bind, Option.bind_some, Option.pure_def]
      rw [rest]
      constructor
      · intro behind i le lt outside
        by_cases before : i < h.start
        · exact each i (mem_range'_1.2 (by omega))
        · have := outside h (by simp)
          exact behind i (by omega) lt fun g mem => outside g (by simp [mem])
      · intro all i le lt outside
        refine all i (by omega) lt fun g mem => ?_
        rcases mem_cons.1 mem with rfl | mem
        · omega
        · exact outside g mem

end Positions

end Dynodoc.RichText
