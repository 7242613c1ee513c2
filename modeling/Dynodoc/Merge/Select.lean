import Dynodoc.Document.State
import Dynodoc.Lib.Text
import Dynodoc.RichText.Merge

/-! Three-way choice between the versions of one component, and conflicts. -/
namespace Dynodoc.Merge
open Std (ExtTreeMap)

structure Conflict where
  key : String
  nodeId : NodeId
  field : String
  ancestor : Value
  team : Value
  draft : Value
  deriving DecidableEq

abbrev Resolutions := ExtTreeMap String String

def conflictKey (id : NodeId) (field : String) : String := id ++ ":" ++ field

def location (n : MaterializedNode) : Value :=
  .fields [("parent_id", .ofOption n.parentId), ("pos", .str n.pos)]

/-- A node as JSON, null when there is none. -/
def nodeValue : Option MaterializedNode → Value
  | none => .null
  | some n => n.toJson

/-- A resolution that is a typed variable name and not the choice of a side. -/
def isNewName (name : String) : Bool :=
  name ≠ "team" ∧ name ≠ "draft" ∧ name ≠ "" ∧ name.toList.head?.all (fun c => !Text.isWhitespace c) ∧
    name.toList.getLast?.all (fun c => !Text.isWhitespace c) ∧ name.utf8ByteSize ≤ 128

def mergeWhole (env : Externals) (field : String) (base team draft : Value) : Option Value :=
  let content := if field = "content" then RichText.merge env base team draft else none
  match content with
  | some merged => some merged
  | none =>
    -- Page setup holds independent settings.
    if field = "page_setup" then
      let base := if base = .null then none else some base
      (RichText.mergeProperty base (some team) (some draft)).toOption.join
    else none

def select (env : Externals) (id : NodeId) (field : String) (base team draft : Value)
    (resolutions : Resolutions) (conflicts : List Conflict) : Value × List Conflict :=
  if draft = base ∨ draft = team then (team, conflicts)
  else if team = base then (draft, conflicts)
  else
    match mergeWhole env field base team draft with
    | some merged => (merged, conflicts)
    | none =>
      let key := conflictKey id field
      let conflict := ⟨key, id, field, base, team, draft⟩
      match resolutions[key]? with
      | none => (team, conflicts ++ [conflict])
      | some choice =>
        if choice = "draft" then (draft, conflicts)
        else if choice = "team" then (team, conflicts)
        else if field = "var_name" ∧ isNewName choice then (.str choice, conflicts)
        else (team, conflicts ++ [conflict])

structure At where
  id : NodeId
  nodeType : String
  field : String

/-- How the merge settles one component; a policy keeps a state of its own. -/
structure Selector (σ : Type) where
  select : σ → At → Value → Value → Value → Resolutions → List Conflict →
    Value × List Conflict × σ

def direct (env : Externals) : Selector Unit where
  select _ at_ base team draft resolutions conflicts :=
    let (v, conflicts) := select env at_.id at_.field base team draft resolutions conflicts
    (v, conflicts, ())

/-- Without resolutions a choice that reports nothing is the one changed side, the
common value, or a merge of both. -/
theorem select_clean {env : Externals} {id : NodeId} {field : String} {base team draft v : Value}
    {conflicts after : List Conflict} (clean : after = [])
    (selected : select env id field base team draft ∅ conflicts = (v, after)) :
    conflicts = [] ∧ ((draft = base ∧ v = team) ∨ (draft = team ∧ v = team) ∨
      (team = base ∧ v = draft) ∨
      (draft ≠ base ∧ team ≠ base ∧ draft ≠ team ∧ (field = "content" ∨ field = "page_setup"))) := by
  subst clean
  simp only [select] at selected
  split at selected
  · rename_i settled
    obtain ⟨rfl, rfl⟩ := Prod.mk.inj selected
    exact ⟨rfl, settled.elim (fun h => .inl ⟨h, rfl⟩) fun h => .inr (.inl ⟨h, rfl⟩)⟩
  · rename_i differ
    rw [not_or] at differ
    split at selected
    · rename_i unchanged
      obtain ⟨rfl, rfl⟩ := Prod.mk.inj selected
      exact ⟨rfl, .inr (.inr (.inl ⟨unchanged, rfl⟩))⟩
    · rename_i changed
      split at selected
      · rename_i merged found
        obtain ⟨rfl, rfl⟩ := Prod.mk.inj selected
        refine ⟨rfl, .inr (.inr (.inr ⟨differ.1, changed, differ.2, ?_⟩))⟩
        by_contra neither
        rw [not_or] at neither
        simp [mergeWhole, neither.1, neither.2] at found
      · simp at selected

end Dynodoc.Merge
