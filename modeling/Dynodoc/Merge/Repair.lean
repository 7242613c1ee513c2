import Dynodoc.Merge.Diff
import Dynodoc.Merge.Select

/-! The repair of a merged tree: parent cycles, orphans and names used twice. -/
namespace Dynodoc.Merge
open Std (ExtTreeMap ExtTreeSet)
open Loop Diff

/-- Follow parents from a node until a node visited before, the end of the chain, or
a node of the path itself. The nodes on the path are those of the list. -/
def followParents (s : DocumentState) (visited : List NodeId) :
    List NodeId × Option NodeId →
      Run ((List NodeId × Option NodeId) ⊕ (List NodeId ⊕ List NodeId))
  | (path, cursor) =>
    match cursor.filter (· ∉ visited) with
    | none => .ok (.inr (.inl path))
    | some id =>
      if id ∈ path then .ok (.inr (.inr (path.drop (path.idxOf id))))
      else .ok (.inl (path ++ [id], s.nodes[id]?.bind MaterializedNode.parentId))

def findCycleFrom (fuel : Nat) (s : DocumentState) :
    List NodeId → List NodeId → Run (Option (List NodeId))
  | [], _ => .ok none
  | start :: rest, visited => do
    match ← loop (followParents s visited) fuel ([], some start) with
    | .inl path => findCycleFrom fuel s rest (visited ++ path)
    | .inr cycle => .ok (some cycle)

def findParentCycle (fuel : Nat) (s : DocumentState) : Run (Option (List NodeId)) :=
  findCycleFrom fuel s s.nodes.keys []

def liveNode (s : DocumentState) (id : NodeId) : Option MaterializedNode :=
  s.nodes[id]?.filter fun n => !n.deleted

def findOrphan (s : DocumentState) : Option (NodeId × NodeId) :=
  s.nodes.toList.findSome? fun (_, n) =>
    match n.parentId with
    | some parent =>
      if !n.deleted && (liveNode s parent).isNone then some (n.id, parent) else none
    | none => none

def addNamed (byName : ExtTreeMap String (List MaterializedNode)) (e : NodeId × MaterializedNode) :
    ExtTreeMap String (List MaterializedNode) :=
  match usedName e.2 with
  | some name =>
    if e.2.deleted then byName else byName.insert name (byName.getD name [] ++ [e.2])
  | none => byName

def namedNodes (s : DocumentState) : ExtTreeMap String (List MaterializedNode) :=
  s.nodes.toList.foldl addNamed ∅

/-- A live node that shares its name with another one, by preference one whose name
is not the team's. -/
def findDuplicateVarName (team s : DocumentState) : Option NodeId :=
  match (namedNodes s).toList.find? fun (_, nodes) => nodes.length > 1 with
  | none => none
  | some (_, nodes) =>
    let changed := nodes.find? fun n =>
      team.nodes[n.id]?.all fun t => t.deleted || t.varName ≠ n.varName
    (changed.or nodes.head?).map MaterializedNode.id

section Conflicts

variable (base team draft : DocumentState)

def orphanConflict (parent : NodeId) : Conflict :=
  ⟨conflictKey parent "$node", parent, "$node", nodeValue base.nodes[parent]?,
    nodeValue team.nodes[parent]?, nodeValue draft.nodes[parent]?⟩

def varNameConflict (id : NodeId) : Conflict :=
  let name (s : DocumentState) : Value := .ofOption (s.nodes[id]?.bind MaterializedNode.varName)
  ⟨conflictKey id "var_name", id, "var_name", name base, name team, name draft⟩

def locationConflict (id : NodeId) : Conflict :=
  let place (s : DocumentState) : Value := (s.nodes[id]?.map location).getD .null
  ⟨conflictKey id "$location", id, "$location", place base, place team, place draft⟩

end Conflicts

def reportOnce (conflicts : List Conflict) (c : Conflict) : List Conflict :=
  if conflicts.any fun known => known.key = c.key then conflicts else conflicts ++ [c]

def relocate (side out : DocumentState) (id : NodeId) : DocumentState :=
  match side.nodes[id]?, out.nodes[id]? with
  | some s, some n =>
    { out with nodes := out.nodes.insert id { n with parentId := s.parentId, pos := s.pos } }
  | _, _ => out

/-- Bring back a node and its deleted ancestors as a side has them. -/
def reviveStep (side : DocumentState) :
    DocumentState × Option NodeId → Run ((DocumentState × Option NodeId) ⊕ DocumentState)
  | (out, cursor) =>
    match cursor.filter fun id => (liveNode out id).isNone with
    | none => .ok (.inr out)
    | some id =>
      match liveNode side id with
      | none => .ok (.inr out)
      | some n =>
        .ok (.inl ({ out with
          nodes := out.nodes.insert id n
          removedChoices := out.removedChoices.erase id }, n.parentId))

def evict (side out : DocumentState) (id : NodeId) : DocumentState :=
  match out.nodes[id]? with
  | none => out
  | some n =>
    let n := match liveNode side id with
      | some s => { n with parentId := s.parentId, pos := s.pos }
      | none => { n with deleted := true }
    { out with nodes := out.nodes.insert id n }

def inside (out : DocumentState) (parent : NodeId) : List NodeId :=
  (out.nodes.toList.filter fun (_, n) => !n.deleted && n.parentId = some parent).map fun e => e.2.id

structure Repaired where
  out : DocumentState
  conflicts : List Conflict
  changed : Bool

/-- A repair that changes nothing reports its conflict. -/
def settle (out : DocumentState) (conflicts : List Conflict) (conflict : Conflict)
    (changed : Bool) : Repaired :=
  ⟨out, if changed then conflicts else reportOnce conflicts conflict, changed⟩

/-- A side as a resolution names it; any other resolution is reported and means the
team. -/
def chosenSide (team draft : DocumentState) (resolutions : Resolutions) (conflict : Conflict)
    (conflicts : List Conflict) : DocumentState × List Conflict :=
  match resolutions[conflict.key]? with
  | none => (team, reportOnce conflicts conflict)
  | some choice =>
    if choice = "draft" then (draft, conflicts)
    else if choice = "team" then (team, conflicts)
    else (team, reportOnce conflicts conflict)

/-- The chosen side either brings the parent back or takes every block out of it. -/
def repairOrphan (fuel : Nat) (side out : DocumentState) (parent : NodeId) : Run DocumentState :=
  if (liveNode side parent).isSome then loop (reviveStep side) fuel (out, some parent)
  else .ok ((inside out parent).foldl (evict side) out)

def resolveOrphan (fuel : Nat) (base team draft out : DocumentState) (conflicts : List Conflict)
    (resolutions : Resolutions) (child parent : NodeId) : Run Repaired :=
  let conflict := orphanConflict base team draft parent
  let (side, conflicts) := chosenSide team draft resolutions conflict conflicts
  (repairOrphan fuel side out parent).map fun next =>
    settle next conflicts conflict
      ((next.nodes[child]?, next.nodes[parent]?) ≠ (out.nodes[child]?, out.nodes[parent]?))

def kidsOf (team : DocumentState) (nodes : ExtTreeMap NodeId MaterializedNode) (parent : NodeId) :
    List NodeId :=
  (nodes.toList.filter fun e =>
    e.2.parentId = some parent && !team.nodes.contains e.2.id).map fun e => e.2.id

/-- Remove the children of one removed block that the team does not have. -/
def dropKids (team : DocumentState) :
    ExtTreeMap NodeId MaterializedNode × List NodeId →
      Run ((ExtTreeMap NodeId MaterializedNode × List NodeId) ⊕ ExtTreeMap NodeId MaterializedNode)
  | (nodes, []) => .ok (.inr nodes)
  | (nodes, parent :: stack) =>
    .ok (.inl ((kidsOf team nodes parent).foldl
      (fun (nodes, stack) kid => (nodes.erase kid, kid :: stack)) (nodes, stack)))

/-- Leave out a block that the team does not have alive, with its children. -/
def rejectBlock (fuel : Nat) (team out : DocumentState) (id : NodeId) : Run DocumentState := do
  let nodes ← loop (dropKids team) fuel (out.nodes.erase id, [id])
  .ok { out with
    nodes := match team.nodes[id]? with
      | some t => nodes.insert id t
      | none => nodes
    removedChoices :=
      if team.removedChoices.contains id then out.removedChoices.insert id
      else out.removedChoices.erase id }

/-- The fields of a block whose name was settled again mirror that name. -/
def mirrorName (renamed : Bool) (team : Option MaterializedNode) (n : MaterializedNode) : Value :=
  match renamed, team, n.currentFields.asObject with
  | false, some t, some fields =>
    match t.currentFields.get? "var_name" with
    | some value => .object (fields.insert "var_name" value)
    | none => .object (fields.erase "var_name")
  | _, _, some fields =>
    if fields.contains "var_name" then .object (fields.insert "var_name" (.ofOption n.varName))
    else n.currentFields
  | _, _, none => n.currentFields

def renameBlock (renamed : Option String) (team : Option MaterializedNode) (n : MaterializedNode) :
    MaterializedNode :=
  let n := match renamed, team with
    | some name, _ => { n with varName := some name }
    | none, some t => { n with varName := t.varName }
    | none, none => { n with deleted := true }
  { n with currentFields := mirrorName renamed.isSome team n }

/-- A new name from the resolutions that no other live block uses. -/
def freshName (out : DocumentState) (resolutions : Resolutions) (key : String) (id : NodeId) :
    Option String :=
  resolutions[key]?.filter fun name =>
    isNewName name && !out.nodes.toList.any fun (_, n) =>
      n.id ≠ id && !n.deleted && n.varName = some name

def resolveDuplicateVarName (fuel : Nat) (base team draft out : DocumentState)
    (conflicts : List Conflict) (resolutions : Resolutions) (id : NodeId) : Run Repaired :=
  let conflict := varNameConflict base team draft id
  let renamed := freshName out resolutions conflict.key id
  let conflicts :=
    if renamed.isNone ∧ resolutions[conflict.key]? ≠ some "team" then
      reportOnce conflicts conflict
    else conflicts
  if renamed.isNone ∧ (liveNode team id).isNone then
    (rejectBlock fuel team out id).map fun next =>
      ⟨next, conflicts, out.nodes[id]? ≠ team.nodes[id]?⟩
  else
    match out.nodes[id]? with
    | none => .ok ⟨out, conflicts, false⟩
    | some n =>
      let n' := renameBlock renamed (liveNode team id) n
      .ok (settle { out with nodes := out.nodes.insert id n' } conflicts conflict
        ((n'.varName, n'.deleted) ≠ (n.varName, n.deleted)))

/-- The member of a cycle to move back: one that moved and that the team has, else
one that moved, else the first. -/
def cycleSuspect (team out : DocumentState) (cycle : List NodeId) : Option NodeId :=
  let moved (id : NodeId) : Bool := out.nodes[id]?.map location ≠ team.nodes[id]?.map location
  ((cycle.find? fun id => team.nodes.contains id && moved id).or (cycle.find? moved)).or cycle.head?

def resolveCycle (base team draft out : DocumentState) (conflicts : List Conflict)
    (resolutions : Resolutions) (cycle : List NodeId) (id : NodeId) : Repaired :=
  let conflict := locationConflict base team draft id
  let places (s : DocumentState) := cycle.map fun id => s.nodes[id]?.map location
  let (side, conflicts) := chosenSide team draft resolutions conflict conflicts
  let next :=
    if resolutions[conflict.key]? = some "draft" then
      (cycle.filter (· ≠ id)).foldl (relocate side) (relocate side out id)
    else relocate side out id
  settle next conflicts conflict (places next ≠ places out)

inductive RepairKey where
  | orphan (child parent : NodeId)
  | name (id : NodeId)
  | cycle (id : NodeId)
  deriving DecidableEq

inductive Defect where
  | orphan (child parent : NodeId)
  | name (id : NodeId)
  | cycle (members : List NodeId) (suspect : NodeId)
  deriving DecidableEq

def findDefect (fuel : Nat) (team out : DocumentState) : Run (Option Defect) := do
  match ← findParentCycle fuel out with
  | some cycle =>
    match cycleSuspect team out cycle with
    | some suspect => .ok (some (.cycle cycle suspect))
    | none => .error .panic
  | none =>
    match findOrphan out with
    | some (child, parent) => .ok (some (.orphan child parent))
    | none => .ok ((findDuplicateVarName team out).map .name)

section Passes

variable (fuel : Nat) (base team draft : DocumentState) (resolutions : Resolutions)

def Defect.key : Defect → RepairKey
  | .orphan child parent => .orphan child parent
  | .name id => .name id
  | .cycle _ suspect => .cycle suspect

def Defect.conflict : Defect → Conflict
  | .orphan _ parent => orphanConflict base team draft parent
  | .name id => varNameConflict base team draft id
  | .cycle _ suspect => locationConflict base team draft suspect

def Defect.resolve (out : DocumentState) (conflicts : List Conflict) : Defect → Run Repaired
  | .orphan child parent =>
    resolveOrphan fuel base team draft out conflicts resolutions child parent
  | .name id => resolveDuplicateVarName fuel base team draft out conflicts resolutions id
  | .cycle members suspect =>
    .ok (resolveCycle base team draft out conflicts resolutions members suspect)

/-- The passes that remain. With none left, or when a repair comes up a second time,
the defect is reported and the tree is left as it is. -/
def repair : Nat → DocumentState → List Conflict → List RepairKey →
    Run (DocumentState × List Conflict)
  | remaining, out, conflicts, seen => do
    match ← findDefect fuel team out with
    | none => .ok (out, conflicts)
    | some defect =>
      match remaining with
      | 0 => .ok (out, reportOnce conflicts (defect.conflict base team draft))
      | remaining + 1 =>
        if defect.key ∈ seen then
          .ok (out, reportOnce conflicts (defect.conflict base team draft))
        else
          let next ← defect.resolve fuel base team draft resolutions out conflicts
          if next.changed then repair remaining next.out next.conflicts (defect.key :: seen)
          else .ok (next.out, next.conflicts)

def validateMergedTree (out : DocumentState) (conflicts : List Conflict) :
    Run (DocumentState × List Conflict) :=
  repair fuel base team draft resolutions (2 * out.nodes.size + 1) out conflicts []

end Passes

end Dynodoc.Merge
