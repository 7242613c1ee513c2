import Dynodoc.Document.Wire
import Dynodoc.Lib.CachedSort

/-! The operations that lead from one state to another. -/
namespace Dynodoc
open Std (ExtTreeMap ExtTreeSet)
open Loop RichText

variable {s : DocumentState}

/-- A removed choice counts as deleted. -/
def DocumentState.canonical (s : DocumentState) : DocumentState :=
  { s with nodes := s.nodes.map fun id n =>
      if s.removedChoices.contains id then { n with deleted := true } else n }

theorem getElem?_canonical (s : DocumentState) (id : NodeId) :
    s.canonical.nodes[id]? = s.nodes[id]?.map fun n =>
      if id ∈ s.removedChoices then { n with deleted := true } else n := by
  simp [DocumentState.canonical]

theorem Keyed.canonical (keyed : Keyed s.nodes) : Keyed s.canonical.nodes := by
  intro id n stored
  rw [getElem?_canonical, Option.map_eq_some_iff] at stored
  obtain ⟨m, before, rfl⟩ := stored
  have own := keyed id m before
  split <;> exact own

/-- The live nodes are those that the canonical state does not call deleted. -/
theorem liveAt_iff {id : NodeId} {n : MaterializedNode} :
    s.LiveAt id n ↔ s.canonical.nodes[id]? = some n ∧ n.deleted = false := by
  rw [getElem?_canonical]
  constructor
  · rintro ⟨stored, live, kept⟩
    simp [stored, live, kept]
  · rintro ⟨stored, live⟩
    obtain ⟨m, found, same⟩ := Option.map_eq_some_iff.1 stored
    split at same
    · subst same
      simp at live
    · rename_i kept
      subst same
      exact ⟨found, live, kept⟩

namespace Diff

/-- The walk from a node towards the root, until a depth is known. The nodes passed
are those seen, so one list is both. -/
def climb (s : DocumentState) (depths : ExtTreeMap NodeId Nat) (cap : Nat) :
    List NodeId × NodeId →
      Run ((List NodeId × NodeId) ⊕ (List NodeId × Nat × ExtTreeMap NodeId Nat))
  | (path, cursor) =>
    match depths[cursor]?, s.nodes[cursor]? with
    | some depth, _ => .ok (.inr (path, depth, depths))
    | none, none => .ok (.inr (path, 0, depths))
    | none, some node =>
      match node.parentId with
      | none => .ok (.inr (path, 0, depths.insert cursor 0))
      | some parent =>
        if cursor ∈ path then .ok (.inr (path, cap, depths))
        else .ok (.inl (path ++ [cursor], parent))

def recordDepths (cap : Nat) (path : List NodeId) (depth : Nat) (depths : ExtTreeMap NodeId Nat) :
    ExtTreeMap NodeId Nat :=
  (path.reverse.foldl (fun (depth, depths) id =>
    (min (depth + 1) cap, depths.insert id (min (depth + 1) cap))) (depth, depths)).2

def depths (fuel : Nat) (s : DocumentState) : Run (ExtTreeMap NodeId Nat) :=
  let cap := s.nodes.size + 1
  s.nodes.keys.foldlM (fun depths id =>
    if depths.contains id then .ok depths
    else do
      let (path, depth, depths) ← loop (climb s depths cap) fuel ([], id)
      .ok (recordDepths cap path depth depths)) ∅

def depthOf (depths : ExtTreeMap NodeId Nat) (id : NodeId) : Run Nat :=
  match depths[id]? with
  | some depth => .ok depth
  | none => .error .panic

inductive DiffError where
  | unsupportedNodeType (nodeId : NodeId) (nodeType : String)
  | nodeTypeChanged (nodeId : NodeId) (before after : String)
  deriving DecidableEq

def usedName (n : MaterializedNode) : Option String := n.varName.filter (· ≠ "")

def addHeld (held : ExtTreeMap String NodeId) (e : NodeId × MaterializedNode) :
    ExtTreeMap String NodeId :=
  match usedName e.2 with
  | some name => if e.2.deleted then held else held.insert name e.2.id
  | none => held

/-- Which live node holds a name; of several the last one. -/
def heldNames (s : DocumentState) : ExtTreeMap String NodeId := s.nodes.toList.foldl addHeld ∅

/-- A block that takes a name another block holds gets it in a later edit. -/
structure Waiting where
  block : NodeId
  holder : NodeId
  edit : EventPayload
  deriving DecidableEq

def nameLater (held : ExtTreeMap String NodeId) (n : MaterializedNode) : Option Waiting :=
  match n.varName.bind fun name => held[name]? with
  | none => none
  | some holder =>
    if holder = n.id then none
    else some ⟨n.id, holder, .fieldEdited n.id "var_name" (.ofOption n.varName)⟩

abbrev NodeOps := Except DiffError (List EventPayload × Option Waiting)

def createOps (held : ExtTreeMap String NodeId) (n : MaterializedNode) : NodeOps :=
  match parseNodeType n.nodeType with
  | none => .error (.unsupportedNodeType n.id n.nodeType)
  | some nodeType =>
    match nameLater held n with
    | none => .ok ([.nodeCreated n.id nodeType n.parentId n.pos n.currentFields n.varName], none)
    | some waiting =>
      let fields := match n.currentFields.asObject with
        | some members => .object (members.erase "var_name")
        | none => n.currentFields
      .ok ([.nodeCreated n.id nodeType n.parentId n.pos fields none], some waiting)

def unionKeys (a b : Value) : List String := (ExtTreeSet.ofList (a.keys ++ b.keys)).toList

theorem mem_unionKeys {a b : Value} {key : String} :
    key ∈ unionKeys a b ↔ key ∈ a.keys ∨ key ∈ b.keys := by
  simp [unionKeys]

theorem nodup_unionKeys (a b : Value) : (unionKeys a b).Nodup :=
  ExtTreeSet.distinct_toList.imp fun {a b} distinct same => distinct (by simp [same])

def fieldOp (env : Externals) (source : DocumentState) (p n : MaterializedNode)
    (acc : List EventPayload × Option Value) (field : String) :
    List EventPayload × Option Value :=
  -- The name edit sets these fields too.
  if field = "var_name" ∨ field = "varName" then acc
  else
    let before :=
      if field = "label" then acc.2.getD (p.currentFields.index field)
      else p.currentFields.index field
    if before = n.currentFields.index field then acc
    else
      let op := compactEvent env source (.fieldEdited n.id field (n.currentFields.index field))
      match op with
      | .richTextPatched .. =>
        (acc.1 ++ [op], some (.str (plainText (n.currentFields.index "content"))))
      | _ => (acc.1 ++ [op], acc.2)

def fieldOps (env : Externals) (source : DocumentState) (p n : MaterializedNode) :
    List EventPayload :=
  ((unionKeys p.currentFields n.currentFields).foldl (fieldOp env source p n) ([], none)).1

def moveOps (p n : MaterializedNode) : List EventPayload :=
  if p.parentId ≠ n.parentId ∨ p.pos ≠ n.pos then [.nodeMoved n.id n.parentId n.pos] else []

/-- A tombstone takes its new name before it is restored, unless it waits for it. -/
def restoreOps (renamedLater restoredChoice : Bool) (p n : MaterializedNode) :
    List EventPayload :=
  if p.deleted then
    let name := if renamedLater then "" else n.varName.getD ""
    (if name ≠ p.varName.getD "" then [.fieldEdited n.id "var_name" (.str name)] else []) ++
    (if restoredChoice then [] else [.nodeRestored n.id])
  else []

def renameOps (renamedLater : Bool) (p n : MaterializedNode) : List EventPayload :=
  if p.varName ≠ n.varName ∧ !renamedLater ∧ !p.deleted then
    [.fieldEdited n.id "var_name" (.str (n.varName.getD ""))]
  else []

def updateOps (env : Externals) (source : DocumentState) (held : ExtTreeMap String NodeId)
    (p n : MaterializedNode) : NodeOps :=
  if p.nodeType ≠ n.nodeType then .error (.nodeTypeChanged n.id p.nodeType n.nodeType)
  else
    let restoredChoice := p.deleted && source.removedChoices.contains n.id
    let waiting :=
      if p.varName ≠ n.varName ∨ p.deleted then nameLater held n else none
    .ok ((if restoredChoice then [.nodeRestored n.id] else []) ++
      moveOps p n ++ restoreOps waiting.isSome restoredChoice p n ++
      fieldOps env source p n ++ renameOps waiting.isSome p n, waiting)

def nodeOps (env : Externals) (source : DocumentState) (held : ExtTreeMap String NodeId)
    (n : MaterializedNode) : NodeOps :=
  match source.nodes[n.id]? with
  | none => createOps held n
  | some p => updateOps env source held p n

/-- Positions of the edits that wait for a block, in order. -/
def dependents (later : List Waiting) (block : NodeId) : List Nat :=
  (List.range later.length).filter fun i => later[i]?.any fun w => w.holder = block

def ready (later : List Waiting) : List Nat :=
  (List.range later.length).filter fun i =>
    later[i]?.any fun w => !later.any fun other => other.block = w.holder

/-- Release the edits that wait for the one just placed; a block's dependents are
released once. -/
def release (later : List Waiting) :
    List Nat × List NodeId × List Nat → Run ((List Nat × List NodeId × List Nat) ⊕ List Nat)
  | ([], _, order) => .ok (.inr order)
  | (i :: queue, released, order) =>
    match later[i]? with
    | none => .error .panic
    | some w =>
      let freed := if w.block ∈ released then [] else dependents later w.block
      .ok (.inl (queue ++ freed, w.block :: released, order ++ [i]))

theorem of_release {later : List Waiting} {queue order : List Nat} {released : List NodeId}
    {next : (List Nat × List NodeId × List Nat) ⊕ List Nat}
    (step : release later (queue, released, order) = .ok next) :
    queue = [] ∧ next = .inr order ∨ ∃ i rest w, queue = i :: rest ∧ later[i]? = some w ∧
      next = .inl (rest ++ if w.block ∈ released then [] else dependents later w.block,
        w.block :: released, order ++ [i]) := by
  cases queue with
  | nil => exact .inl ⟨rfl, (Except.ok.inj step).symm⟩
  | cons i queue =>
    simp only [release] at step
    split at step
    · contradiction
    rename_i w found
    exact .inr ⟨i, queue, w, rfl, found, (Except.ok.inj step).symm⟩

def releaseOrder (fuel : Nat) (later : List Waiting) : Run (List Nat) := do
  let order ← loop (release later) fuel (ready later, [], [])
  .ok (order ++ (List.range later.length).filter (· ∉ order))

/-- Each edit is taken at its first position only. -/
def laterOps (later : List Waiting) (order : List Nat) : List EventPayload :=
  order.eraseDups.filterMap fun i => later[i]?.map Waiting.edit

structure Phases where
  unlocks : List EventPayload
  content : List EventPayload
  locks : List EventPayload

/-- Protection of a sheet is switched off before all other operations and switched
on after them. -/
def phase (source : DocumentState) (acc : Phases) (op : EventPayload) : Phases :=
  match op with
  | .nodeCreated id nodeType parentId pos fields varName =>
    if fields.index "kind" = .str "sheet" ∧ fields.index "sheet_protected" = .bool true then
      let fields := (fields.setIndex "sheet_protected" (.bool false)).getD fields
      { acc with
        content := acc.content ++ [.nodeCreated id nodeType parentId pos fields varName]
        locks := acc.locks ++ [.fieldEdited id "sheet_protected" (.bool true)] }
    else { acc with content := acc.content ++ [op] }
  | .fieldEdited id field value =>
    if field = "sheet_protected" ∧ value = .bool true then
      { acc with locks := acc.locks ++ [op] }
    else if field = "sheet_protected" ∧ (value = .null ∨ value = .bool false) ∧
        source.nodes[id]?.any (fun n => !n.deleted) then
      { acc with unlocks := acc.unlocks ++ [op] }
    else { acc with content := acc.content ++ [op] }
  | _ => { acc with content := acc.content ++ [op] }

def phased (source : DocumentState) (ops : List EventPayload) : List EventPayload :=
  let phases := ops.foldl (phase source) ⟨[], [], []⟩
  phases.unlocks ++ phases.content ++ phases.locks

def deeperLast (a b : Nat × NodeId) : Bool := a.1 < b.1 ∨ (a.1 = b.1 ∧ a.2 ≤ b.2)

/-- The target's live nodes, parents first. -/
def orderedNodes (fuel : Nat) (target : DocumentState) : Run (List MaterializedNode) := do
  let depths ← depths fuel target
  let nodes ← sortByCachedKey deeperLast
    (fun n => (depthOf depths n.id).map fun depth => (depth, n.id))
    (target.nodes.toList.map Prod.snd)
  .ok (nodes.filter fun n => !n.deleted)

/-- The nodes to delete, children first. -/
def removedNodes (fuel : Nat) (source target : DocumentState) : Run (List MaterializedNode) :=
  let removed := (source.nodes.toList.map Prod.snd).filter fun n =>
    !n.deleted && target.nodes[n.id]?.all fun m => m.deleted
  if removed.isEmpty then .ok removed
  else do
    let depths ← depths fuel source
    sortByCachedKey (fun a b : Nat => decide (b ≤ a)) (fun n => depthOf depths n.id) removed

def diff (env : Externals) (fuel : Nat) (source target : DocumentState) :
    Run (Except DiffError (List EventPayload)) := do
  let source := source.canonical
  let target := target.canonical
  let nodes ← orderedNodes fuel target
  match nodes.mapM (nodeOps env source (heldNames source)) with
  | .error e => .ok (.error e)
  | .ok parts =>
    let removed ← removedNodes fuel source target
    let later := parts.filterMap Prod.snd
    let order ← releaseOrder fuel later
    .ok (.ok (phased source
      (parts.flatMap Prod.fst ++ removed.map (fun n => .nodeDeleted n.id) ++
        laterOps later order)))

end Diff
end Dynodoc
