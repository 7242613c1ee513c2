import Dynodoc.RichText.Patch
import Mathlib.Data.List.Sort

/-! Three-way merging of JSON properties and of one text container. -/
namespace Dynodoc.RichText
open Std (ExtTreeMap ExtTreeSet)
open Json List

def optDepth : Option Value → Nat
  | none => 0
  | some v => v.depth

def mergeDepth (base team draft : Option Value) : Nat :=
  max (optDepth base) (max (optDepth team) (optDepth draft))

/-- A property that is not an object has no members. -/
def membersOf (v : Option Value) : ExtTreeMap String Value := (v.bind asObject).getD ∅

theorem optDepth_member (v : Option Value) (key : String) :
    optDepth (membersOf v)[key]? ≤ optDepth v - 1 := by
  cases v with
  | none => simp [membersOf, optDepth]
  | some v =>
    cases read : v.asObject with
    | none => simp [membersOf, read, optDepth]
    | some members =>
      rw [asObject_eq_some] at read
      subst read
      simp only [membersOf, Option.bind_some, asObject_object, Option.getD_some]
      cases found : members[key]? with
      | none => exact Nat.zero_le _
      | some item =>
        have below := depth_of_get? (v := .object members) (by simpa using found)
        exact Nat.le_sub_one_of_lt below

def addMark (out : ExtTreeMap String Value) (mark : Value) :
    Except Unit (ExtTreeMap String Value) :=
  match (mark.index "type").asStr with
  | none => .error ()
  | some kind => if out.contains kind then .error () else .ok (out.insert kind mark)

/-- The marks of a text node by their type; a type must not occur twice. -/
def marks (v : Option Value) : Except Unit (ExtTreeMap String Value) :=
  match v with
  | none => .ok ∅
  | some v =>
    match v.asArray with
    | none => .error ()
    | some items => items.foldlM addMark ∅

private theorem marks_members {items : List Value} {start out : ExtTreeMap String Value} {n : Nat}
    (deep : ∀ item ∈ items, item.depth ≤ n)
    (held : ∀ (key : String) (item : Value), start[key]? = some item → item.depth ≤ n)
    (read : items.foldlM addMark start = .ok out) (key : String) (item : Value)
    (found : out[key]? = some item) :
    item.depth ≤ n := by
  induction items generalizing start with
  | nil =>
    cases read
    exact held key item found
  | cons mark items ih =>
    simp only [foldlM_cons, addMark] at read
    split at read
    · contradiction
    split at read
    · contradiction
    refine ih (fun item mem => deep item (by simp [mem])) ?_ read
    intro key item found
    rw [OrderedMap.getElem?_insert] at found
    split at found
    · cases found
      exact deep mark (by simp)
    · exact held key item found

theorem depth_marks {v : Option Value} {m : ExtTreeMap String Value} (read : marks v = .ok m) :
    (object m).depth ≤ max 1 (optDepth v) := by
  cases v with
  | none =>
    cases read
    have := @Json.depth_object_le Number ∅ 0 (by simp)
    omega
  | some v =>
    simp only [marks] at read
    split at read
    · contradiction
    rename_i items shape
    rw [asArray_eq_some] at shape
    subst shape
    have deep : ∀ item ∈ items, item.depth ≤ (array items).depth - 1 := by
      intro item mem
      have := depth_of_mem_array mem
      omega
    have := depth_object_le (marks_members deep (by simp) read)
    simp only [optDepth]
    omega

/-- The names of the marks of both branches, in the order the branches give them. -/
def markNames (sides : List (Option Value)) : Except Unit (List String) :=
  sides.foldlM (fun names side =>
    match side with
    | none => .ok names
    | some v =>
      match v.asArray with
      | none => .error ()
      | some items =>
        items.foldlM (fun names mark =>
          match (mark.index "type").asStr with
          | none => .error ()
          | some name => .ok (if names.contains name then names else names ++ [name])) names) []

def putMember (out : ExtTreeMap String Value) (key : String) :
    Option Value → ExtTreeMap String Value
  | some value => out.insert key value
  | none => out

theorem mergeDepth_members {base team draft : Option Value}
    (shape : (team.bind asObject).isSome) (key : String) :
    mergeDepth (membersOf base)[key]? (membersOf team)[key]? (membersOf draft)[key]? <
      mergeDepth base team draft := by
  have b := optDepth_member base key
  have t := optDepth_member team key
  have d := optDepth_member draft key
  have positive : 0 < optDepth team := by
    cases team with
    | none => simp at shape
    | some v => exact v.depth_pos
  simp only [mergeDepth]
  omega

theorem mergeDepth_marks {b t d : Option Value} {mb mt md : ExtTreeMap String Value}
    (differ : ¬ (d = b ∨ d = t)) (hb : marks b = .ok mb) (ht : marks t = .ok mt)
    (hd : marks d = .ok md) :
    mergeDepth (some (.object mb)) (some (.object mt)) (some (.object md)) ≤ mergeDepth b t d := by
  have b_le := depth_marks hb
  have t_le := depth_marks ht
  have d_le := depth_marks hd
  have positive : 0 < max (optDepth t) (optDepth d) := by
    cases t with
    | some v => exact lt_of_lt_of_le v.depth_pos (Nat.le_max_left ..)
    | none =>
      cases d with
      | some v => exact lt_of_lt_of_le v.depth_pos (Nat.le_max_right ..)
      | none => simp at differ
  simp only [mergeDepth, optDepth] at *
  omega

mutual

def mergeProperty (base team draft : Option Value) : Except Unit (Option Value) :=
  if draft = base ∨ draft = team then .ok team
  else if team = base then .ok draft
  else if both : (team.bind asObject).isSome ∧ (draft.bind asObject).isSome then
    -- Removing an object against changing it must not bring it back.
    if base.any (fun v => !v.isObject) then .error ()
    else do
      let b := membersOf base
      let t := membersOf team
      let d := membersOf draft
      let keys := (ExtTreeSet.ofList (b.keys ++ t.keys ++ d.keys)).toList
      let out ← keys.foldlM (fun out key =>
        (if key = "marks" then mergeMarks b[key]? t[key]? d[key]?
          else mergeProperty b[key]? t[key]? d[key]?).map (putMember out key)) ∅
      .ok (some (.object out))
  else .error ()
termination_by (mergeDepth base team draft, 0)
decreasing_by
  all_goals exact Prod.Lex.left _ _ (mergeDepth_members both.1 key)

def mergeMarks (b t d : Option Value) : Except Unit (Option Value) :=
  if _differ : d = b ∨ d = t then .ok t
  else if t = b then .ok d
  else
    match _b : marks b, _t : marks t, _d : marks d with
    | .ok mb, .ok mt, .ok md => do
      match ← mergeProperty (some (.object mb)) (some (.object mt)) (some (.object md)) with
      | none => .error ()
      | some merged =>
        let names ← markNames [t, d]
        let result := names.filterMap merged.get?
        .ok (if result.isEmpty then none else some (.array result))
    | _, _, _ => .error ()
termination_by (mergeDepth b t d, 1)
decreasing_by
  exact Prod.lex_def.2 ((mergeDepth_marks _differ _b _t _d).lt_or_eq.imp id fun same => ⟨same, by simp⟩)

end

structure Hunk where
  start : Nat
  stop : Nat
  insert : List Scalar
  deriving DecidableEq

/-- Where each old character went, and the changed blocks in between. -/
def alignment (env : Externals) (a b : List Scalar) : List (Option Nat) × List Hunk :=
  (textDiff env a b).foldl (fun (map, hunks) op =>
    if op.tag = .equal then
      ((range op.oldLen).foldl (fun map k => map.set (op.old + k) (some (op.new + k))) map,
        hunks)
    else (map, hunks ++ [⟨op.old, op.old + op.oldLen, (b.drop op.new).take op.newLen⟩]))
    (replicate a.length none, [])

def overlaps (a b : Hunk) : Bool :=
  if a.start = a.stop then a.start ≥ b.start ∧ a.start ≤ b.stop
  else if b.start = b.stop then b.start ≥ a.start ∧ b.start ≤ a.stop
  else a.start < b.stop ∧ b.start < a.stop

/-- The linear scan for an overlap between two lists of blocks. -/
def anyOverlap : List Hunk → List Hunk → Bool
  | th :: ths, dh :: dhs =>
    if overlaps th dh then true
    else if th.stop ≤ dh.start then anyOverlap ths (dh :: dhs)
    else anyOverlap (th :: ths) dhs
  | _, _ => false
termination_by ths dhs => ths.length + dhs.length

def styleAt (tokens : List Scalar) (i : Nat) : Option Nat := tokens[i]?.map Scalar.style

def styleVia (map : List (Option Nat)) (tokens : List Scalar) (i : Nat) : Option Nat :=
  map[i]?.join.bind (styleAt tokens)

/-- A character at or next to a changed block that the other side gave a new style. -/
def restyled (b : List Scalar) (map : List (Option Nat)) (other : List Scalar) (h : Hunk) : Bool :=
  let range :=
    if h.start = h.stop then range' (h.start - 1) (min (h.start + 1) b.length - (h.start - 1))
    else range' h.start (h.stop - h.start)
  range.any fun i =>
    match styleVia map other i with
    | some style => styleAt b i ≠ some style
    | none => false

/-- A character that both sides keep, in the merge of its two styles. -/
def mergeScalar (env : Externals) (b : List Scalar) (ts ds : Nat → Option Nat) (styles : Styles)
    (i : Nat) : Option (Scalar × Styles) := do
  let ts ← ts i
  let ds ← ds i
  let old ← b[i]?
  if old.ch = atom ∧ ts ≠ old.style ∧ ds ≠ old.style ∧ ts ≠ ds then none
  else
    match mergeProperty styles.values[old.style]? styles.values[ts]? styles.values[ds]? with
    | .ok (some metadata) =>
      let (style, styles) := styles.intern env metadata
      some (⟨old.ch, style⟩, styles)
    | _ => none

def mergeKept (env : Externals) (b : List Scalar) (ts ds : Nat → Option Nat) (positions : List Nat)
    (result : List Scalar) (styles : Styles) : Option (List Scalar × Styles) :=
  positions.foldlM (fun (result, styles) i => do
    let (scalar, styles) ← mergeScalar env b ts ds styles i
    return (result ++ [scalar], styles)) (result, styles)

def mergeHunks (env : Externals) (b : List Scalar) (ts ds : Nat → Option Nat) (hunks : List Hunk)
    (styles : Styles) : Option (List Scalar × Styles) := do
  let (result, _, styles) ← (hunks ++ [Hunk.mk b.length b.length []]).foldlM
    (fun (result, cursor, styles) h => do
      let (result, styles) ←
        mergeKept env b ts ds (range' cursor (h.start - cursor)) result styles
      return (result ++ h.insert, h.stop, styles)) ([], 0, styles)
  return (result, styles)

def mergeInline (env : Externals) (base team draft : Value) : Option Value := do
  let (b, styles) := inline env base .empty true
  let b ← b
  let (t, styles) := inline env team styles true
  let t ← t
  let (d, styles) := inline env draft styles true
  let d ← d
  let out ← (mergeProperty (props base) (props team) (props draft)).toOption.join
  let (tm, th) := alignment env b t
  let (dm, dh) := alignment env b d
  if anyOverlap th dh then none
  else if th.any (restyled b dm d) ∨ dh.any (restyled b tm t) then none
  else
    let hunks := (th ++ dh).insertionSort fun x y => x.start ≤ y.start
    let (result, styles) ← mergeHunks env b (styleVia tm t) (styleVia dm d) hunks styles
    let content ← (children result styles.values true).toOption
    out.setIndex "content" (.array content)

def withoutAttrs (v : Value) : Value :=
  match v.asObject with
  | some members => .object (members.erase "attrs")
  | none => v

/-- Images merge attribute by attribute; of other content only one text container
merges, character by character. -/
def merge (env : Externals) (base team draft : Value) : Option Value :=
  if draft = base ∨ draft = team then some team
  else if team = base then some draft
  else if base.index "type" = .str "image" ∧ withoutAttrs base = withoutAttrs team ∧
      withoutAttrs base = withoutAttrs draft then
    match mergeProperty (base.get? "attrs") (team.get? "attrs") (draft.get? "attrs"),
        (withoutAttrs team).asObject with
    | .ok (some attrs), some rest => some (.object (rest.insert "attrs" attrs))
    | .ok none, some rest => some (.object rest)
    | _, _ => none
  else mergeInline env base team draft

end Dynodoc.RichText
