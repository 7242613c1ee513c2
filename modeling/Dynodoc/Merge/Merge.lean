import Dynodoc.Merge.Group
import Dynodoc.Merge.Repair

/-! The three-way merge of document states. -/
namespace Dynodoc.Merge
open Std (ExtTreeMap ExtTreeSet)
open Loop Diff RichText

/-- What the merge carries from one choice to the next. -/
structure Progress (σ : Type) where
  selector : σ
  conflicts : List Conflict
  deriving DecidableEq

section Nodes

variable {σ : Type} (sel : Selector σ) (resolutions : Resolutions) (buildEventPlan : Bool)

def pick (at_ : At) (b t d : Value) (p : Progress σ) : Value × Progress σ :=
  let (v, conflicts, selector) := sel.select p.selector at_ b t d resolutions p.conflicts
  (v, ⟨selector, conflicts⟩)

/-- Existence or a tombstone crosses the whole node, and so does a change of type
when the result must be expressed as events. -/
def crossesNode (b t : Option MaterializedNode) (d : MaterializedNode) : Bool :=
  match b, t with
  | some b, some t =>
    b.deleted ≠ d.deleted ∨ (buildEventPlan ∧ b.nodeType ≠ d.nodeType) ∨ t.deleted ≠ b.deleted
  | _, _ => true

def isContentBlock (b t d : MaterializedNode) : Bool :=
  (b.currentFields.index "content").isObject ∧ (t.currentFields.index "content").isObject ∧
    (d.currentFields.index "content").isObject

def setField (n : MaterializedNode) (key : String) (v : Value) : Run MaterializedNode :=
  match n.currentFields.setIndex key v with
  | some fields => .ok { n with currentFields := fields }
  | none => .error .panic

def mergeField (id : NodeId) (b t d : MaterializedNode) :
    MaterializedNode × Progress σ → String → Run (MaterializedNode × Progress σ)
  | (n, p), key =>
    if key = "var_name" ∨ key = "varName" then
      -- Mirrors the name, which is merged on its own.
      if n.varName ≠ t.varName then
        (setField n "var_name" (.ofOption n.varName)).map fun n => (n, p)
      else .ok (n, p)
    else if key = "label" ∧ isContentBlock b t d then .ok (n, p)
    else
      let (v, p) := pick sel resolutions ⟨id, t.nodeType, key⟩ (b.currentFields.index key)
        (t.currentFields.index key) (d.currentFields.index key) p
      if v ≠ .null ∨ (n.currentFields.get? key).isSome then
        (setField n key v).map fun n => (n, p)
      else .ok (n, p)

def mergeLocation (id : NodeId) (b t d : MaterializedNode) (p : Progress σ) :
    MaterializedNode × Progress σ :=
  let (loc, p) :=
    pick sel resolutions ⟨id, t.nodeType, "$location"⟩ (location b) (location t) (location d) p
  ({ t with
      parentId := (loc.index "parent_id").asStr
      pos := (loc.index "pos").asStr.getD t.pos }, p)

def mergeName (id : NodeId) (b t d n : MaterializedNode) (p : Progress σ) :
    MaterializedNode × Progress σ :=
  let (name, p) := pick sel resolutions ⟨id, t.nodeType, "var_name"⟩ (.ofOption b.varName)
    (.ofOption t.varName) (.ofOption d.varName) p
  ({ n with varName := name.asStr }, p)

/-- The label of a content block follows its content. -/
def relabel (b t d n : MaterializedNode) : Run MaterializedNode :=
  if isContentBlock b t d then
    setField n "label" (.str (plainText (n.currentFields.index "content")))
  else .ok n

def mergeFields (id : NodeId) (b t d n : MaterializedNode) (p : Progress σ) :
    Run (MaterializedNode × Progress σ) := do
  let (n, p) ← (unionKeys b.currentFields d.currentFields).foldlM
    (mergeField sel resolutions id b t d) (n, p)
  (relabel b t d n).map fun n => (n, p)

def mergeComponents (id : NodeId) (b t d : MaterializedNode) (p : Progress σ) :
    Run (MaterializedNode × Progress σ) :=
  let (n, p) := mergeLocation sel resolutions id b t d p
  let (n, p) := mergeName sel resolutions id b t d n p
  mergeFields sel resolutions id b t d n p

/-- The version of a node that the merge puts in place of the team's, if any. -/
def mergeNode (id : NodeId) (b t : Option MaterializedNode) (d : MaterializedNode)
    (p : Progress σ) : Run (Option MaterializedNode × Progress σ) :=
  if b = some d then .ok (none, p)
  else if crossesNode buildEventPlan b t d then
    let (picked, p) := pick sel resolutions ⟨id, d.nodeType, "$node"⟩ (nodeValue b) (nodeValue t)
      d.toJson p
    .ok (MaterializedNode.ofJson picked, p)
  else
    match b, t with
    | some b, some t => (mergeComponents sel resolutions id b t d p).map fun (n, p) => (some n, p)
    | _, _ => .error .panic

def mergeEntry (base team : DocumentState) :
    ExtTreeMap NodeId MaterializedNode × Progress σ → NodeId × MaterializedNode →
      Run (ExtTreeMap NodeId MaterializedNode × Progress σ)
  | (nodes, p), (id, d) => do
    let (n, p) ← mergeNode sel resolutions buildEventPlan id base.nodes[id]? team.nodes[id]? d p
    .ok (match n with
      | some n => nodes.insert id n
      | none => nodes, p)

/-- Only the draft's nodes are visited; all others stay as the team has them. -/
def mergeNodes (base team draft : DocumentState) (p : Progress σ) :
    Run (ExtTreeMap NodeId MaterializedNode × Progress σ) :=
  draft.nodes.toList.foldlM (mergeEntry sel resolutions buildEventPlan base team) (team.nodes, p)

end Nodes

/-- Removed choices stay so only while their node is deleted. -/
def retainRemoved (s : DocumentState) : DocumentState :=
  { s with removedChoices := s.removedChoices.filter fun id =>
      s.nodes[id]?.any MaterializedNode.deleted }

theorem mem_retainRemoved {s : DocumentState} {id : NodeId} :
    id ∈ (retainRemoved s).removedChoices ↔
      id ∈ s.removedChoices ∧ s.nodes[id]?.any MaterializedNode.deleted := by
  simp [retainRemoved]

/-- A draft node that no event could express and that a resolution rejects gives way
to the team's version. -/
def resolveUnsupportedNodes (team draft : DocumentState) (resolutions : Resolutions) :
    DocumentState :=
  if resolutions.isEmpty then draft
  else
    draft.nodes.toList.foldl (fun resolved (id, node) =>
      if node.deleted ∨ draft.removedChoices.contains id ∨
          resolutions[conflictKey id "$node"]? ≠ some "team" then resolved
      else
        match team.nodes[id]? with
        | none =>
          if (parseNodeType node.nodeType).isNone then
            { resolved with nodes := resolved.nodes.erase id }
          else resolved
        | some prior =>
          if prior.nodeType ≠ node.nodeType then
            { resolved with nodes := resolved.nodes.insert id prior }
          else resolved) draft

structure MergePlan where
  state : DocumentState
  conflicts : List Conflict
  ops : List EventPayload

def DiffError.nodeId : DiffError → NodeId
  | .unsupportedNodeType id _ => id
  | .nodeTypeChanged id .. => id

/-- The event plan; what no event can express is a conflict. -/
def diffForMerge (env : Externals) (fuel : Nat) (base source target : DocumentState)
    (conflicts : List Conflict) : Run (List EventPayload × List Conflict) := do
  match ← diff env fuel source target with
  | .ok ops => .ok (ops, conflicts)
  | .error e =>
    let id := DiffError.nodeId e
    .ok ([], reportOnce conflicts ⟨conflictKey id "$node", id, "$node", nodeValue base.nodes[id]?,
      nodeValue source.nodes[id]?, nodeValue target.nodes[id]?⟩)

section Plans

variable (env : Externals) (fuel : Nat)

def mergeWith {σ : Type} (base team draft : DocumentState) (resolutions : Resolutions)
    (sel : Selector σ) (start : σ) (buildEventPlan groupInserts : Bool) : Run (MergePlan × σ) := do
  let base := base.canonical
  let team := team.canonical
  let draft :=
    (if buildEventPlan then resolveUnsupportedNodes team draft resolutions else draft).canonical
  let (nodes, p) ←
    mergeNodes sel resolutions buildEventPlan base team draft ⟨start, []⟩
  let out := retainRemoved { team with nodes := nodes }
  let (out, conflicts) ← validateMergedTree fuel base team draft resolutions out p.conflicts
  let out := if groupInserts ∧ conflicts = [] then keepRunsTogether base team out else out
  if buildEventPlan then do
    let (ops, conflicts) ← diffForMerge env fuel base team out conflicts
    .ok (⟨out, conflicts, ops⟩, p.selector)
  else .ok (⟨out, conflicts, []⟩, p.selector)

def mergeDirect (base team draft : DocumentState) (resolutions : Resolutions)
    (buildEventPlan groupInserts : Bool) : Run MergePlan :=
  (mergeWith env fuel base team draft resolutions (direct env) () buildEventPlan groupInserts).map
    Prod.fst

def merge (base team draft : DocumentState) (resolutions : Resolutions) : Run MergePlan :=
  mergeDirect env fuel base team draft resolutions true false

/-- The strict choice for one touched block: the team's version stays unless the
draft's is asked for. -/
def strictBlock (base team draft : DocumentState) (resolutions : Resolutions)
    (acc : DocumentState × List Conflict) (id : NodeId) : DocumentState × List Conflict :=
  match liveNode team id with
  | none => acc
  | some t =>
    let d := draft.nodes[id]?
    if d = some t ∨ t.parentId = none then acc
    else
      let key := conflictKey id "$block"
      let choice := resolutions[key]?
      if choice = some "draft" then acc
      else
        ({ acc.1 with nodes := acc.1.nodes.insert id t },
          if choice = some "team" then acc.2
          else acc.2 ++ [⟨key, id, "$block", nodeValue base.nodes[id]?, t.toJson, nodeValue d⟩])

def mergeStrictWithInsertOrdering (base team draft : DocumentState) (resolutions : Resolutions)
    (groupInserts : Bool) : Run MergePlan := do
  let draft := resolveUnsupportedNodes team draft resolutions
  let plan ← merge env fuel base team draft resolutions
  let (touchedOps, conflicts) ← diffForMerge env fuel base base draft plan.conflicts
  let touched := (ExtTreeSet.ofList (touchedOps.filterMap EventPayload.targetNodeId)).toList
  let already := conflicts.map Conflict.nodeId
  let (out, conflicts) := (touched.filter (· ∉ already)).foldl
    (strictBlock base team.canonical draft.canonical resolutions) (plan.state, conflicts)
  let (out, conflicts) ←
    validateMergedTree fuel base team draft resolutions (retainRemoved out) conflicts
  let out :=
    if groupInserts ∧ conflicts = [] then keepRunsTogether base.canonical team.canonical out
    else out
  let (ops, conflicts) ← diffForMerge env fuel base team out conflicts
  .ok ⟨out, conflicts, ops⟩

def mergeStrict (base team draft : DocumentState) (resolutions : Resolutions) : Run MergePlan :=
  mergeStrictWithInsertOrdering env fuel base team draft resolutions false

end Plans

end Dynodoc.Merge
