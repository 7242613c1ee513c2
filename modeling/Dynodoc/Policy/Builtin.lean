import Dynodoc.Policy.Collections
import Dynodoc.RichText.Reorder

/-! The strategies that are built: three that do what the plain merge does, and the element-wise
merge of collections. -/
namespace Dynodoc.Policy
open Std (ExtTreeMap)
open RichText

variable {i : Inputs}

def wholeValue : Strategy where
  id := "dynodoc.default.whole-value.v1"
  resolve i _ := (unchangedSide i).getD (.conflict .bothChanged "whole-value")

/-- Its merged marks are listed in the order of the team first, so symmetry is not promised. -/
def richText (env : Externals) : Strategy where
  id := "dynodoc.default.richtext.v1"
  promises := Laws.all.without .symmetry
  resolve i _ :=
    match unchangedSide i with
    | some done => done
    | none =>
      match RichText.merge env i.base i.team i.draft with
      | some merged => .merged merged "richtext-hunks"
      | none => .conflict .overlap "richtext-hunks"

/-- A base of null is no base. -/
def presentBase (base : Value) : Option Value := if base = .null then none else some base

def propertyResolved : Except Unit (Option Value) → Resolved
  | .ok (some merged) => .merged merged "property-keys"
  | _ => .conflict .overlap "property-keys"

/-- Independent keys of an object merge key by key. -/
def propertyMerge : Strategy where
  id := "dynodoc.default.property.v1"
  resolve i _ :=
    match unchangedSide i with
    | some done => done
    | none => propertyResolved (mergeProperty (presentBase i.base) (some i.team) (some i.draft))

def Registry.builtin (env : Externals) : Registry :=
  ⟨[wholeValue, richText env, propertyMerge, elementWise env]⟩

section Symmetry

variable {first second : String}

/-- A conflict on both, or values that are equal up to the order of marks. -/
inductive SameOutcome : Outcome → Outcome → Prop
  | conflict (reason : Reason) : SameOutcome (.conflict reason) (.conflict reason)
  | merged {v w : Value} (related : Reordered v w) : SameOutcome (.merged v) (.merged w)

theorem unchangedSide_swapped_none (changed : unchangedSide i = none) :
    unchangedSide i.swapped = none := by
  have same := unchangedSide_swapped i
  rw [changed] at same
  exact Option.map_eq_none_iff.1 same

theorem unchangedSide_merges {done : Resolved} (settled : unchangedSide i = some done) :
    ∃ v, done.outcome = .merged v := by
  unfold unchangedSide at settled
  split at settled
  · cases settled
    exact ⟨_, rfl⟩
  · split at settled
    · cases settled
      exact ⟨_, rfl⟩
    · contradiction

/-- What the strategy merges where both sides changed. -/
def Inputs.slot (i : Inputs) : Slot := ⟨false, presentBase i.base, some i.team, some i.draft⟩

/-- Where one side did not change the value, the merge that the strategy leaves out would keep it or
be a conflict. -/
theorem slot_unchanged {done : Resolved} (settled : unchangedSide i = some done) :
    i.slot.Settled ∨ i.slot.Clashes := by
  have unchanged : ¬ (i.draft ≠ i.base ∧ i.draft ≠ i.team ∧ i.team ≠ i.base) := by
    rw [← unchangedSide_eq_none, settled]
    simp
  by_cases none : i.base = .null
  · by_cases same : i.draft = i.team
    · exact .inl (.inr (.inl (by simp [Inputs.slot, same])))
    · right
      have null : i.draft = .null ∨ i.team = .null := by
        rw [none] at unchanged
        tauto
      refine ⟨by simp [Slot.Settled, Inputs.slot, presentBase, none, same], ?_⟩
      rcases null with draft | team
      · simp [Inputs.slot, Slot.Objects, draft, Json.asObject]
      · simp [Inputs.slot, Slot.Objects, team, Json.asObject]
  · left
    simp only [Slot.Settled, Inputs.slot, presentBase, if_neg none, Option.some.injEq]
    tauto

theorem slot_swap_eq {done : Resolved} (settled : unchangedSide i = some done) :
    i.slot.Somewhere Slot.Clashes ∨ ¬ i.slot.Somewhere Slot.Shuffled := by
  rcases slot_unchanged settled with same | clashes
  · rw [Slot.somewhere_settled same (P := Slot.Shuffled)]
    exact .inr fun shuffled => shuffled.1 same
  · exact .inl (Slot.somewhere_iff.2 (.inl clashes))

theorem propertyResolved_outcome {r : Value → Value → Prop} {x y : Except Unit (Option Value)}
    (agree : Agree r x y) : (propertyResolved y).outcome = (propertyResolved x).outcome ↔ y = x := by
  cases agree with
  | failed => simp
  | absent => simp
  | value related => simp [propertyResolved, Resolved.merged]

/-- Exchanging the sides changes nothing exactly where the merge of properties is a conflict, or lists
all marks that both sides changed in an order that does not depend on the sides. -/
theorem resolve_swapped_eq (i : Inputs) (ctx : Context) :
    (propertyMerge.resolve i.swapped ctx).outcome = (propertyMerge.resolve i ctx).outcome ↔
      i.slot.Somewhere Slot.Clashes ∨ ¬ i.slot.Somewhere Slot.Shuffled := by
  cases settled : unchangedSide i with
  | some done =>
    have swapped := unchangedSide_swapped i
    rw [settled] at swapped
    obtain ⟨done', settled', same⟩ := Option.map_eq_some_iff.1 swapped
    simp only [propertyMerge, settled, settled', same]
    exact iff_of_true trivial (slot_swap_eq settled)
  | none =>
    simp only [propertyMerge, settled, unchangedSide_swapped_none settled]
    rw [← Slot.merge_swap_eq]
    exact propertyResolved_outcome i.slot.merge_swap

/-- Exchanging the sides gives the same outcome up to the order of marks. It is the very same one
exactly where the merge of properties is a conflict, or lists all marks that both sides changed in
an order that does not depend on the sides. -/
theorem propertyMerge_symmetric (i : Inputs) (ctx : Context) :
    SameOutcome (propertyMerge.resolve i ctx).outcome (propertyMerge.resolve i.swapped ctx).outcome ∧
      ((propertyMerge.resolve i.swapped ctx).outcome = (propertyMerge.resolve i ctx).outcome ↔
        i.slot.Somewhere Slot.Clashes ∨ ¬ i.slot.Somewhere Slot.Shuffled) := by
  refine ⟨?_, resolve_swapped_eq i ctx⟩
  cases settled : unchangedSide i with
  | some done =>
    have swapped := unchangedSide_swapped i
    rw [settled] at swapped
    obtain ⟨done', settled', same⟩ := Option.map_eq_some_iff.1 swapped
    obtain ⟨v, merged⟩ := unchangedSide_merges settled
    simp only [propertyMerge, settled, settled', same, merged]
    exact .merged (.same v)
  | none =>
    simp only [propertyMerge, settled, unchangedSide_swapped_none settled]
    have agree := mergeProperty_swap (presentBase i.base) (some i.team) (some i.draft)
    simp only [Inputs.swapped]
    generalize mergeProperty (presentBase i.base) (some i.team) (some i.draft) = x,
      mergeProperty (presentBase i.base) (some i.draft) (some i.team) = y at agree
    cases agree with
    | failed => exact .conflict _
    | absent => exact .conflict _
    | value related => exact .merged related

def sampleMark (kind : String) : Value := .fields [("type", .str kind)]

def sampleMarks (kind : String) : Value := .fields [("marks", .array [sampleMark kind])]

def sampleInputs : Inputs := ⟨.fields [], sampleMarks "bold", sampleMarks "italic"⟩

theorem sample_member (key : String) : sampleInputs.slot.member key =
    if key = "marks" then ⟨true, none, some (.array [sampleMark "bold"]),
      some (.array [sampleMark "italic"])⟩
    else ⟨false, none, none, none⟩ := by
  have base : presentBase (.fields []) = some (.fields []) := by decide +kernel
  simp only [sampleInputs, Inputs.slot, base, Slot.member, membersOf_getElem?, sampleMarks]
  split <;> simp [*]

theorem sample_reads : (sampleInputs.slot.member "marks").Reads ∅
    (.ofList [("bold", sampleMark "bold")]) (.ofList [("italic", sampleMark "italic")]) := by
  rw [sample_member]
  exact ⟨rfl, by decide +kernel, by decide +kernel⟩

theorem sample_kind_settled (kind : String) : ((Slot.typed ∅ (.ofList [("bold", sampleMark "bold")])
    (.ofList [("italic", sampleMark "italic")])).member kind).Settled := by
  rw [Slot.member_typed]
  by_cases bold : kind = "bold"
  · subst bold
    exact .inl (by decide +kernel)
  · exact .inr (.inr (by simp [bold]))

/-- Both sides give a text its first mark: the marks come in the order of the sides, although the
strategy promises that exchanging the sides changes nothing. -/
theorem property_marks_follow_the_team : propertyMerge.promises.contains Laws.symmetry = true ∧
    ∃ i ctx, (propertyMerge.resolve i.swapped ctx).outcome ≠ (propertyMerge.resolve i ctx).outcome := by
  have changed : ¬ sampleInputs.slot.Settled := by decide +kernel
  have objects : sampleInputs.slot.Objects := by
    unfold Slot.Objects
    decide +kernel
  have changedMarks : ¬ (sampleInputs.slot.member "marks").Settled := by
    rw [sample_member]
    decide +kernel
  refine ⟨by decide, sampleInputs, sampleContext, ?_⟩
  rw [Ne, resolve_swapped_eq, not_or, not_not]
  constructor
  · rw [Slot.somewhere_objects changed rfl objects]
    rintro (clashes | ⟨key, clashes⟩)
    · exact clashes.2 objects
    · by_cases marks : key = "marks"
      · subst marks
        rw [Slot.somewhere_reads changedMarks rfl sample_reads, Slot.somewhere_objects] at clashes
        · rcases clashes with clashes | clashes | ⟨kind, clashes⟩
          · exact clashes.2 ⟨_, _, _, sample_reads⟩
          · exact clashes.2 (by simp [Slot.typed, Slot.Objects, Json.isObject])
          · rw [Slot.somewhere_settled (sample_kind_settled kind)] at clashes
            exact clashes.1 (sample_kind_settled kind)
        · decide +kernel
        · rfl
        · simp [Slot.typed, Slot.Objects, Json.isObject]
      · rw [sample_member, if_neg marks, Slot.somewhere_settled (.inl rfl)] at clashes
        exact clashes.1 (.inl rfl)
  · refine (Slot.somewhere_objects changed rfl objects).2 (.inr ⟨"marks", Slot.somewhere_iff.2 (.inl ?_)⟩)
    refine ⟨changedMarks, rfl, ?_⟩
    rw [sample_member]
    decide +kernel

end Symmetry

end Dynodoc.Policy
