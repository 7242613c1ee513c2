import Dynodoc.RichText.Acceptance
import Dynodoc.RichText.Reorder

/-! A merge of rich text with the two sides exchanged: it is accepted for the same containers, and
gives the same text up to the order of marks and the cuts between text nodes. -/
namespace Dynodoc.RichText
open Std (ExtTreeMap)
open Loop Edits List Json

variable {env : Externals} {styles : Styles} {out : Value}

section Compatible

variable {base team draft : Value} {b t d : List Scalar}
variable {th dh : List Hunk} {values : List Value}

/-- Two edits of the base that touch or overlap. -/
def Clash (e f : Edit Cell) : Prop :=
  if e.start = e.stop then f.start ≤ e.start ∧ e.start ≤ f.stop
  else if f.start = f.stop then e.start ≤ f.start ∧ f.start ≤ e.stop
  else e.start < f.stop ∧ f.start < e.stop

theorem clash_comm (e f : Edit Cell) : Clash e f ↔ Clash f e := by
  unfold Clash
  split <;> split <;> omega

theorem overlaps_iff_clash (values : List Value) (x y : Hunk) :
    overlaps x y = true ↔ Clash (x.edit values) (y.edit values) := by
  unfold overlaps Clash Hunk.edit
  split
  · simp
  · split <;> simp

theorem anyOverlap_found (found : anyOverlap th dh = true) :
    ∃ x ∈ th, ∃ y ∈ dh, overlaps x y = true := by
  induction th, dh using anyOverlap.induct with
  | case1 x th y dh here => exact ⟨x, by simp, y, by simp, here⟩
  | case2 x th y dh apart before ih =>
    rw [anyOverlap, if_neg apart, if_pos before] at found
    obtain ⟨x', mem, y', mem', overlap⟩ := ih found
    exact ⟨x', by simp [mem], y', mem', overlap⟩
  | case3 x th y dh apart after ih =>
    rw [anyOverlap, if_neg apart, if_neg after] at found
    obtain ⟨x', mem, y', mem', overlap⟩ := ih found
    exact ⟨x', mem, y', by simp [mem'], overlap⟩
  | case4 th dh empty => simp [anyOverlap] at found

/-- The scan for an overlap finds one if there is one. The blocks of each side are ranges in order,
with a position that is kept between any two. -/
theorem scan_finds_every_overlap (ths dhs : List Hunk) (forward : ∀ h ∈ ths ++ dhs, h.start ≤ h.stop)
    (ordered : ths.Pairwise fun x y => x.stop < y.start)
    (ordered' : dhs.Pairwise fun x y => x.stop < y.start) :
    anyOverlap ths dhs = true ↔ ∃ x ∈ ths, ∃ y ∈ dhs, overlaps x y = true := by
  refine ⟨anyOverlap_found, ?_⟩
  rintro ⟨x, mem, y, mem', overlap⟩
  by_contra none
  have apart := anyOverlap_complete forward (ordered.imp Nat.le_of_lt) (ordered'.imp Nat.le_of_lt)
    (by simpa using none) x mem y mem'
  rw [overlap] at apart
  contradiction

/-- An insertion where a deletion ends. -/
theorem insertion_overlaps_deletion :
    ∃ x ∈ [Hunk.mk 0 1 [], ⟨4, 4, []⟩], ∃ y ∈ [Hunk.mk 2 4 []], overlaps x y = true :=
  (scan_finds_every_overlap _ _ (by decide) (by decide) (by decide)).1 (by simp [anyOverlap, overlaps])

/-- What the three containers hold allows a merge of their text. -/
structure Compatible (env : Externals) (base team draft : Value) : Prop where
  apart : ∀ e ∈ edits env base team, ∀ f ∈ edits env base draft, ¬ Clash e f
  ours : ∀ e ∈ edits env base team, ∀ i, Touched (cells base).length e.start e.stop i →
    ¬ Restyled (cells base) (cells draft) (script env base draft) i
  theirs : ∀ e ∈ edits env base draft, ∀ i, Touched (cells base).length e.start e.stop i →
    ¬ Restyled (cells base) (cells team) (script env base team) i
  kept : ∀ i < (cells base).length, deleted (edits env base team ++ edits env base draft) i = false →
    CanMerge (cells base) (cells team) (cells draft) (script env base team) (script env base draft) i
  written : ∀ c ∈ woven env base team draft, c.Writable

variable {tm dm : List (Option Nat)}

theorem anyOverlap_iff
    (ours : Side env values base team b t tm th) (theirs : Side env values base draft b d dm dh) :
    anyOverlap th dh = false ↔ ∀ e ∈ edits env base team, ∀ f ∈ edits env base draft, ¬ Clash e f := by
  rw [← ours.edits, ← theirs.edits]
  simp only [forall_mem_map, ← overlaps_iff_clash, Bool.not_eq_true]
  constructor
  · refine anyOverlap_complete (fun h mem => ?_) ours.ordered theirs.ordered
    rcases mem_append.1 mem with mem | mem
    · exact (ours.inside h mem).1
    · exact (theirs.inside h mem).1
  · intro apart
    by_contra found
    obtain ⟨x, mem, y, mem', overlap⟩ := anyOverlap_found (Bool.not_eq_false _ ▸ found)
    rw [apart x mem y mem'] at overlap
    contradiction

theorem any_restyled_iff {map tm : List (Option Nat)} {th : List Hunk} {other : Value}
    {o : List Scalar} {ops : List DiffOp} (apart : Apartness values)
    (readBase : Reads values b (cells base))
    (readOther : Reads values o (cells other)) (joined : ∀ i, map[i]?.join = target ops i)
    (side : Side env values base team b t tm th) :
    th.any (restyled b map o) = false ↔ ∀ e ∈ edits env base team, ∀ i,
      Touched (cells base).length e.start e.stop i → ¬ Restyled (cells base) (cells other) ops i := by
  rw [← side.edits, any_eq_false]
  simp only [forall_mem_map, Hunk.edit]
  refine forall₂_congr fun h mem => ?_
  rw [restyled_iff apart readBase readOther joined (side.inside h mem).2, readBase.length]
  simp

theorem mergeHunks_succeeds
    (setting : ExactSetting env values b t d (cells base) (cells team) (cells draft) tm dm
      (script env base team) (script env base draft))
    (grown : values <+: styles.values) (ours : Side env values base team b t tm th)
    (theirs : Side env values base draft b d dm dh) (apart : anyOverlap th dh = false) :
    (mergeHunks env b (styleVia tm t) (styleVia dm d) (sorted th dh) styles).isSome ↔
      ∀ i < (cells base).length, deleted (edits env base team ++ edits env base draft) i = false →
        CanMerge (cells base) (cells team) (cells draft) (script env base team)
        (script env base draft) i := by
  have outside (i : Nat) : deleted (edits env base team ++ edits env base draft) i = false ↔
      ∀ h ∈ sorted th dh, ¬ (h.start ≤ i ∧ i < h.stop) := by
    rw [← ours.edits, ← theirs.edits, ← map_append, deleted, any_eq_false, sorted]
    simp only [forall_mem_map, mem_insertionSort, Hunk.edit, Bool.and_eq_true, decide_eq_true_eq]
  have ahead := forall_sorted (P := fun h => 0 ≤ h.start ∧ h.start ≤ h.stop ∧ h.stop ≤ b.length)
    (fun h mem => ⟨Nat.zero_le _, ours.inside h mem⟩) fun h mem => ⟨Nat.zero_le _, theirs.inside h mem⟩
  have loop := mergeLoop_succeeds setting grown [] ahead (sorted_ordered ours theirs apart)
  simp only [Nat.zero_le, true_imp_iff] at loop
  rw [mergeHunks_eq, Option.isSome_bind]
  simp only [outside, ← setting.base.length]
  exact loop

open Option

theorem mergeTokens_succeeds (readable : env.Readable) {properties : Except Unit (Option Value)}
    (exact : styles.Exact env) (readBase : Reads styles.values b (cells base))
    (readTeam : Reads styles.values t (cells team)) (readDraft : Reads styles.values d (cells draft))
    (isOut : properties.toOption.join = some out) (shape : out.isObject = true) :
    (mergeTokens env properties b t d styles).isSome ↔ Compatible env base team draft := by
  have ours : Side env styles.values base team b t _ _ := side_of_alignment readBase readTeam
  have theirs : Side env styles.values base draft b d _ _ := side_of_alignment readBase readDraft
  have joined : ∀ i, (alignment env b t).1[i]?.join = target (script env base team) i := by
    intro i
    rw [align_join, textDiff_of_reads readBase readTeam]
  have joined' : ∀ i, (alignment env b d).1[i]?.join = target (script env base draft) i := by
    intro i
    rw [align_join, textDiff_of_reads readBase readDraft]
  have different : Apartness styles.values := fun i j v => exact.style_eq
  have setting : ExactSetting env styles.values b t d (cells base) (cells team) (cells draft) _ _ _ _ :=
    ⟨readBase, readTeam, readDraft, joined, joined', different⟩
  have apartIff := anyOverlap_iff ours theirs
  have oursIff := any_restyled_iff different readBase readDraft joined' ours
  have theirsIff := any_restyled_iff different readBase readTeam joined theirs
  unfold mergeTokens
  rw [isOut, Option.bind_eq_bind, bind_some]
  dsimp only
  split
  · rename_i found
    simp only [isSome_none, Bool.false_eq_true, false_iff]
    intro compatible
    rw [apartIff.2 compatible.apart] at found
    contradiction
  · rename_i none
    have apart : anyOverlap (alignment env b t).2 (alignment env b d).2 = false := by simpa using none
    have keptIff := mergeHunks_succeeds setting prefix_rfl ours theirs apart
    split
    · rename_i found
      simp only [isSome_none, Bool.false_eq_true, false_iff]
      intro compatible
      rw [oursIff.2 compatible.ours, theirsIff.2 compatible.theirs] at found
      simp at found
    · rename_i fine
      rw [not_or, Bool.not_eq_true, Bool.not_eq_true] at fine
      constructor
      · intro merged
        obtain ⟨w, merged⟩ := isSome_iff_exists.1 merged
        obtain ⟨⟨result, after⟩, loop, merged⟩ := bind_eq_some_iff.1 merged
        obtain ⟨content, written, -⟩ := bind_eq_some_iff.1 merged
        have reads := (mergeHunks_weaves readable exact.sound readBase readTeam readDraft ours
          theirs apart loop).2
        exact ⟨apartIff.1 apart, oursIff.1 fine.1, theirsIff.1 fine.2, keptIff.1 (by rw [loop]; rfl),
          (children_succeeds reads).1 ⟨content, toOption_eq_some.1 written⟩⟩
      · intro compatible
        obtain ⟨⟨result, after⟩, loop⟩ := isSome_iff_exists.1 (keptIff.2 compatible.kept)
        have reads := (mergeHunks_weaves readable exact.sound readBase readTeam readDraft ours
          theirs apart loop).2
        obtain ⟨content, written⟩ := (children_succeeds reads).2 compatible.written
        obtain ⟨w, set⟩ := setIndex_isSome (.inl shape) "content" (.array content)
        simp [loop, toOption_eq_some.2 written, set]

end Compatible

section Swapped

variable {base team draft : Value}

/-- The same character or object, with the same metadata up to the order of marks. -/
structure SameCell (c c' : Cell) : Prop where
  ch : c.ch = c'.ch
  metadata : Reordered c.metadata c'.metadata

theorem SameCell.refl (c : Cell) : SameCell c c := ⟨rfl, .same _⟩

theorem Reordered.eq_of_str {v w : Value} {s : String} (related : Reordered v w)
    (isStr : v = .str s ∨ w = .str s) : v = w := by
  cases related with
  | same => rfl
  | object keys members =>
    rcases isStr with isStr | isStr
    · have shape := congrArg asObject isStr
      contradiction
    · have shape := congrArg asObject isStr
      contradiction

theorem MemberReordered.plain_of_ne {key : String} {v w : Value} (related : MemberReordered key v w)
    (notMarks : key ≠ "marks") : Reordered v w := by
  cases related with
  | plain related => exact related
  | marks => contradiction

theorem SameCell.writable {c c' : Cell} (same : SameCell c c') (writable : c.Writable) : c'.Writable := by
  obtain ⟨ch, metadata⟩ := c
  obtain ⟨ch', metadata'⟩ := c'
  obtain ⟨sameChar, related⟩ := same
  obtain ⟨m, rfl, object, text⟩ := writable
  dsimp only at sameChar related object text
  subst sameChar
  generalize isObject : Json.object m = v at related
  cases related with
  | same => exact ⟨m, isObject.symm, object, text⟩
  | object keys members =>
    rename_i m₁ m'
    rw [Json.object_inj] at isObject
    subst isObject
    -- The type is a text in both or in neither.
    have sameType : m["type"]? = some (.str "text") ↔ m'["type"]? = some (.str "text") := by
      constructor
      · intro found
        have known : "type" ∈ m' := (keys _).1 (of_getElem?_eq_some found)
        obtain ⟨w, found'⟩ := OrderedMap.mem_iff_exists.1 known
        have related := (members _ _ _ found found').plain_of_ne (by decide)
        rw [found', ← related.eq_of_str (.inl rfl)]
      · intro found
        have known : "type" ∈ m := (keys _).2 (of_getElem?_eq_some found)
        obtain ⟨w, found'⟩ := OrderedMap.mem_iff_exists.1 known
        have related := (members _ _ _ found' found).plain_of_ne (by decide)
        rw [found', related.eq_of_str (.inr rfl)]
    refine ⟨m', rfl, fun other => object (fun isText => other (sameType.1 isText)), fun isText => ?_⟩
    rw [← keys, ← keys]
    exact text (sameType.2 isText)

variable {bc tc dc : List Cell}

theorem mergedCell_swap {tops dops : List DiffOp} (i : Nat) :
    Option.Rel SameCell (mergedCell bc tc dc tops dops i) (mergedCell bc dc tc dops tops i) := by
  unfold mergedCell
  cases bc[i]? with
  | none => exact .none
  | some old =>
    cases (target tops i).bind (tc[·]?) with
    | none =>
      cases (target dops i).bind (dc[·]?) with
      | none => exact .none
      | some theirs => exact .none
    | some ours =>
      cases (target dops i).bind (dc[·]?) with
      | none => exact .none
      | some theirs =>
        have swapped := mergeProperty_swap (some old.metadata) (some ours.metadata) (some theirs.metadata)
        simp only [Option.bind_eq_bind, Option.bind_some]
        generalize mergeProperty (some old.metadata) (some ours.metadata) (some theirs.metadata) = x,
          mergeProperty (some old.metadata) (some theirs.metadata) (some ours.metadata) = y at swapped
        cases swapped with
        | failed => exact .none
        | absent => exact .none
        | value related => exact .some ⟨rfl, related⟩

theorem CanMerge.swap {tops dops : List DiffOp} {i : Nat}
    (can : CanMerge bc tc dc tops dops i) : CanMerge bc dc tc dops tops i := by
  obtain ⟨old, ours, theirs, metadata, isOld, isOurs, isTheirs, property, fine⟩ := can
  have swapped := mergeProperty_swap (some old.metadata) (some ours.metadata) (some theirs.metadata)
  rw [property] at swapped
  generalize isMerged : mergeProperty (some old.metadata) (some theirs.metadata) (some ours.metadata) = y
    at swapped
  cases swapped with
  | value related =>
    refine ⟨old, theirs, ours, _, isOld, isTheirs, isOurs, isMerged, ?_⟩
    rintro ⟨isAtom, theirsChanged, oursChanged, differ⟩
    exact fine ⟨isAtom, oursChanged, theirsChanged, differ.symm⟩

theorem deleted_append_comm (es fs : List (Edit Cell)) (i : Nat) :
    deleted (es ++ fs) i = deleted (fs ++ es) i := by
  unfold deleted
  rw [any_append, any_append, Bool.or_comm]

theorem edits_forward {e : Edit Cell} (mem : e ∈ edits env base team) : e.start ≤ e.stop := by
  obtain ⟨op, -, rfl⟩ := mem_map.1 mem
  exact Nat.le_add_right _ _

/-- Edits that do not touch never put something in at the same gap. -/
theorem insertedAt_comm
    (apart : ∀ e ∈ edits env base team, ∀ f ∈ edits env base draft, ¬ Clash e f) (i : Nat) :
    insertedAt (edits env base team ++ edits env base draft) i =
      insertedAt (edits env base draft ++ edits env base team) i := by
  have split (es fs : List (Edit Cell)) : insertedAt (es ++ fs) i = insertedAt es i ++ insertedAt fs i := by
    simp [insertedAt]
  rw [split, split]
  by_cases here : ∃ e ∈ edits env base team, e.start = i
  · obtain ⟨e, mem, start⟩ := here
    have nothing : insertedAt (edits env base draft) i = [] := by
      refine insertedAt_eq_nil fun f mem' start' => apart e mem f mem' ?_
      have := edits_forward mem
      have := edits_forward mem'
      unfold Clash
      split
      · omega
      · split <;> omega
    rw [nothing, append_nil, nil_append]
  · have nothing : insertedAt (edits env base team) i = [] :=
      insertedAt_eq_nil fun e mem start => here ⟨e, mem, start⟩
    rw [nothing, append_nil, nil_append]

theorem forall₂_flatMap {α β : Type} {r : β → β → Prop} {f g : α → List β} (l : List α)
    (each : ∀ a, List.Forall₂ r (f a) (g a)) : List.Forall₂ r (l.flatMap f) (l.flatMap g) := by
  induction l with
  | nil => exact .nil
  | cons a l ih => exact rel_append (each a) ih

theorem woven_swap (apart : ∀ e ∈ edits env base team, ∀ f ∈ edits env base draft, ¬ Clash e f) :
    List.Forall₂ SameCell (woven env base team draft) (woven env base draft team) := by
  unfold woven weave
  refine forall₂_flatMap _ fun i => ?_
  refine rel_append ?_ ?_
  · rw [insertedAt_comm apart]
    exact forall₂_same.2 fun c _ => .refl c
  · unfold keep
    rw [deleted_append_comm]
    split
    · exact .nil
    · have swapped := @mergedCell_swap (cells base) (cells team) (cells draft) (script env base team)
        (script env base draft) i
      generalize mergedCell (cells base) (cells team) (cells draft) _ _ i = x,
        mergedCell (cells base) (cells draft) (cells team) _ _ i = y at swapped
      cases swapped with
      | none => exact .nil
      | some same => exact .cons same .nil

theorem Compatible.swap (compatible : Compatible env base team draft) : Compatible env base draft team where
  apart e mem f mem' clash := compatible.apart f mem' e mem ((clash_comm e f).1 clash)
  ours := compatible.theirs
  theirs := compatible.ours
  kept i lt alive := (compatible.kept i lt (by rwa [deleted_append_comm])).swap
  written c mem := by
    obtain ⟨c', mem', same⟩ := exists_left_of_mem (woven_swap compatible.apart) mem
    exact same.writable (compatible.written c' mem')

/-- Contents that read the same one character or object at a time: the same up to the order of
marks and the cuts between text nodes. -/
structure SameRuns (items items' : List Value) : Prop where
  cells : List.Forall₂ SameCell (items.flatMap childCells) (items'.flatMap childCells)
  filled : ∀ item ∈ items ++ items', item.index "type" = .str "text" →
    ∃ s, item.get? "text" = some (.str s) ∧ s ≠ ""

/-- Equal up to the order of marks and, in the content of a text container, the cuts between text
nodes. -/
inductive SameText : Value → Value → Prop
  | whole {v w : Value} (related : Reordered v w) : SameText v w
  | container {m m' : ExtTreeMap String Value} {items items' : List Value}
      (members : MembersAgree MemberReordered m m') (runs : SameRuns items items') :
      SameText (.object (m.insert "content" (.array items))) (.object (m'.insert "content" (.array items')))

end Swapped

section Merge

variable {base team draft : Value} {b t d : List Scalar}
variable {v : Value}

theorem mergeProperty_object {v t d : Option Value} (ours : ∀ w ∈ t, w.isObject = true)
    (theirs : ∀ w ∈ d, w.isObject = true) (merged : mergeProperty v t d = .ok (some out)) :
    out.isObject = true := by
  change Slot.merge ⟨false, v, t, d⟩ = _ at merged
  by_cases settled : Slot.Settled ⟨false, v, t, d⟩
  · rw [Slot.merge_settled settled] at merged
    have result := Except.ok.inj merged
    split at result
    · exact ours out result
    · exact theirs out result
  · by_cases objects : Slot.Objects ⟨false, v, t, d⟩
    · rcases Slot.merge_objects rfl objects with ⟨failed, -⟩ | ⟨m, isObject, -⟩
      · cases failed.symm.trans merged
      · cases isObject.symm.trans merged
        exact isObject_iff.2 ⟨m, rfl⟩
    · cases (Slot.merge_refused rfl settled objects).symm.trans merged

theorem props_object (v : Value) : ∀ w ∈ props v, w.isObject = true := by
  intro w isProps
  obtain ⟨members, -, rfl⟩ := Option.map_eq_some_iff.1 isProps
  exact isObject_iff.2 ⟨_, rfl⟩

theorem Tokens.exact (tokens : Tokens env base team draft b t d styles) : styles.Exact env := by
  have styled : styles =
      (inline env draft (inline env team (inline env base .empty true).2 true).2 true).2 := by
    rw [tokens.ofDraft]
  rw [styled]
  exact inline_exact (inline_exact (inline_exact Styles.exact_empty base true) team true) draft true

theorem Tokens.swap (tokens : Tokens env base team draft b t d styles) :
    ∃ b d t styles, Tokens env base draft team b d t styles := by
  have readDraft : (inline env draft (inline env base .empty true).2 true).1.isSome := by
    rw [inline_isSome draft _ (inline env team (inline env base .empty true).2 true).2, tokens.ofDraft]
    rfl
  have readTeam :
      (inline env team (inline env draft (inline env base .empty true).2 true).2 true).1.isSome := by
    rw [inline_isSome team _ (inline env base .empty true).2, tokens.ofTeam]
    rfl
  obtain ⟨d', isDraft⟩ := Option.isSome_iff_exists.1 readDraft
  obtain ⟨t', isTeam⟩ := Option.isSome_iff_exists.1 readTeam
  exact ⟨b, d', t', _, tokens.ofBase, isDraft, Prod.ext isTeam rfl⟩

theorem mergeInline_swap (readable : env.Readable)
    (accepted : mergeInline env base team draft = some v) :
    ∃ w, mergeInline env base draft team = some w ∧ SameText v w := by
  obtain ⟨b, t, d, styles, tokens⟩ := tokens_of_mergeInline accepted
  obtain ⟨b', d', t', styles', tokens'⟩ := tokens.swap
  obtain ⟨sound, readBase, readTeam, readDraft⟩ := tokens.reads readable
  obtain ⟨sound', readBase', readDraft', readTeam'⟩ := tokens'.reads readable
  rw [mergeInline_of_tokens tokens] at accepted
  rw [mergeInline_of_tokens tokens']
  obtain ⟨-, out, result, values, content, isOut, written, isWoven, set⟩ :=
    mergeTokens_weaves readable sound readBase readTeam readDraft accepted
  have property : mergeProperty (props base) (props team) (props draft) = .ok (some out) :=
    toOption_eq_some.1 (Option.join_eq_some_iff.1 isOut)
  have shape := mergeProperty_object (props_object team) (props_object draft) property
  have compatible := (mergeTokens_succeeds readable tokens.exact readBase readTeam readDraft isOut shape).1
    (by rw [accepted]; rfl)
  have swapped := mergeProperty_swap (props base) (props team) (props draft)
  rw [property] at swapped
  generalize property' : mergeProperty (props base) (props draft) (props team) = y at swapped ⊢
  cases swapped with
  | value related =>
    rename_i out'
    have shape' := mergeProperty_object (props_object draft) (props_object team) property'
    have isOut' : (Except.ok (some out') : Except Unit (Option Value)).toOption.join = some out' := rfl
    have succeeds := (mergeTokens_succeeds readable tokens'.exact readBase' readDraft' readTeam'
      isOut' shape').2
      compatible.swap
    obtain ⟨w, accepted'⟩ := Option.isSome_iff_exists.1 succeeds
    obtain ⟨-, _, result', values', content', same, written', isWoven', set'⟩ :=
      mergeTokens_weaves readable sound' readBase' readDraft' readTeam' accepted'
    cases same
    refine ⟨w, accepted', ?_⟩
    obtain ⟨m, rfl⟩ := isObject_iff.1 shape
    obtain ⟨m', rfl, members⟩ := related.members
    have runs : SameRuns content content' := by
      constructor
      · rw [isWoven, isWoven']
        exact woven_swap compatible.apart
      · intro item mem
        rcases mem_append.1 mem with mem | mem
        · exact children_filled written item mem
        · exact children_filled written' item mem
    simp only [setIndex, asObject_object, Option.some.injEq] at set set'
    rw [← set, ← set']
    exact .container members runs

/-- What an image becomes, once its attributes are merged. -/
def mergedImage (rest : Option (ExtTreeMap String Value)) : Except Unit (Option Value) → Option Value
  | .ok (some attrs) => rest.map fun members => .object (members.insert "attrs" attrs)
  | .ok none => rest.map .object
  | .error _ => none

theorem merge_eq (env : Externals) (base team draft : Value) : merge env base team draft =
    if draft = base ∨ draft = team then some team
    else if team = base then some draft
    else if base.index "type" = .str "image" ∧ withoutAttrs base = withoutAttrs team ∧
        withoutAttrs base = withoutAttrs draft then
      mergedImage (withoutAttrs team).asObject
        (mergeProperty (base.get? "attrs") (team.get? "attrs") (draft.get? "attrs"))
    else mergeInline env base team draft := by
  unfold merge
  congr 3
  cases (withoutAttrs team).asObject <;>
    rcases mergeProperty (base.get? "attrs") (team.get? "attrs") (draft.get? "attrs") with
      _ | (_ | _) <;> rfl

theorem mergedImage_swap (rest : Option (ExtTreeMap String Value)) {x y : Except Unit (Option Value)}
    (agree : Agree Reordered x y) (merged : mergedImage rest x = some v) :
    ∃ w, mergedImage rest y = some w ∧ SameText v w := by
  cases agree with
  | failed => contradiction
  | absent => exact ⟨v, merged, .whole (.same v)⟩
  | value related =>
    obtain ⟨members, rfl, rfl⟩ := Option.map_eq_some_iff.1 merged
    refine ⟨_, rfl, .whole (.object (by simp) fun key v w found found' => ?_)⟩
    rw [OrderedMap.getElem?_insert] at found found'
    split at found
    · rename_i here
      rw [if_pos here] at found'
      cases found
      cases found'
      exact .plain related
    · rename_i elsewhere
      rw [if_neg elsewhere, found] at found'
      cases found'
      exact .plain (.same v)

theorem merge_swap (readable : env.Readable) (accepted : merge env base team draft = some v) :
    ∃ w, merge env base draft team = some w ∧ SameText v w := by
  rw [merge_eq] at accepted
  rw [merge_eq]
  by_cases settled : draft = base ∨ draft = team ∨ team = base
  · refine ⟨v, ?_, .whole (.same v)⟩
    rcases settled with rfl | rfl | rfl
    · by_cases same : team = draft
      · simpa [same] using accepted
      · simpa [same, Ne.symm same] using accepted
    · exact accepted
    · by_cases same : draft = team
      · simpa [same] using accepted
      · simpa [same, Ne.symm same] using accepted
  · simp only [not_or] at settled
    obtain ⟨draftChanged, differ, teamChanged⟩ := settled
    simp only [draftChanged, differ, or_self, if_false, teamChanged] at accepted
    simp only [teamChanged, Ne.symm differ, or_self, if_false, draftChanged]
    split at accepted
    · rename_i image
      rw [if_pos ⟨image.1, image.2.2, image.2.1⟩, ← image.2.2]
      rw [← image.2.1] at accepted
      exact mergedImage_swap _ (mergeProperty_swap _ _ _) accepted
    · rename_i notImage
      rw [if_neg fun image => notImage ⟨image.1, image.2.2, image.2.1⟩]
      exact mergeInline_swap readable accepted

theorem merge_symmetric (env : Externals) (readable : env.Readable) (base team draft : Value) :
    (merge env base team draft = none ∧ merge env base draft team = none) ∨
      ∃ v w, merge env base team draft = some v ∧ merge env base draft team = some w ∧ SameText v w := by
  cases accepted : merge env base team draft with
  | some v =>
    obtain ⟨w, accepted', same⟩ := merge_swap readable accepted
    exact .inr ⟨v, w, rfl, accepted', same⟩
  | none =>
    cases accepted' : merge env base draft team with
    | none => exact .inl ⟨rfl, rfl⟩
    | some w =>
      obtain ⟨v, refused, -⟩ := merge_swap readable accepted'
      rw [accepted] at refused
      contradiction

/-- One side puts a character in front, the other sets the last one bold and goes on after it. -/
theorem both_ends_exchange : sampleText.Readable ∧ ∃ v w,
    merge sampleText (sampleParagraph [sampleRun "ab" false]) (sampleParagraph [sampleRun "xab" false])
      (sampleParagraph [sampleRun "a" false, sampleRun "by" true]) = some v ∧
    merge sampleText (sampleParagraph [sampleRun "ab" false])
      (sampleParagraph [sampleRun "a" false, sampleRun "by" true])
      (sampleParagraph [sampleRun "xab" false]) =
      some w ∧ SameText v w := by
  have accepted : (merge sampleText (sampleParagraph [sampleRun "ab" false])
      (sampleParagraph [sampleRun "xab" false])
      (sampleParagraph [sampleRun "a" false, sampleRun "by" true])).isSome := by
    unfold merge mergeInline mergeHunks mergeKept mergeScalar
    rw [mergeProperty_eq]
    decide +kernel
  refine ⟨sampleText_readable, ?_⟩
  rcases merge_symmetric sampleText sampleText_readable (sampleParagraph [sampleRun "ab" false])
    (sampleParagraph [sampleRun "xab" false]) (sampleParagraph [sampleRun "a" false, sampleRun "by" true])
    with ⟨refused, -⟩ | same
  · rw [refused] at accepted
    contradiction
  · exact same

end Merge

end Dynodoc.RichText
