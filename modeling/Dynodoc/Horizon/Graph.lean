import Dynodoc.Horizon.View
import Dynodoc.Lib.DepthFirst

/-! The commit graph of a view: stored commits and released ones. The source numbers the
nodes, stored commits first and by address; here a node is its address, and a sorted vector
that is searched by halving is an ordered map. -/
namespace Dynodoc.Horizon
open Std (ExtTreeMap ExtTreeSet)
open Checkpoint (Address)
open DepthFirst SkeletonEntry

def maxAncestors : Nat := 100000

def HistoryView.bodies (view : HistoryView) : ExtTreeMap Address CommitNode :=
  .ofList (view.commits.map fun commit => (commit.address, commit.toCommitNode))

def HistoryView.released (view : HistoryView) : ExtTreeMap Address SkeletonEntry :=
  .ofList (view.skeleton.map fun entry => (entry.address, entry))

structure Graph where
  bodies : ExtTreeMap Address CommitNode
  released : ExtTreeMap Address SkeletonEntry
  marks : Marks Address Nat

section Parts

variable (bodies : ExtTreeMap Address CommitNode) (released : ExtTreeMap Address SkeletonEntry)

def nodesOf : List Address := bodies.keys ++ released.keys

def parentsIn (address : Address) : List Address :=
  match bodies[address]? with
  | some commit => commit.parents
  | none => (released[address]?.map parents).getD []

/-- One more than the highest. -/
def above (heights : List Nat) : Nat := heights.foldl (fun most height => max most (height + 1)) 0

/-- The height of a stored commit comes from its parents, that of a released one is on record. -/
def heightFrom (address : Address) (parents : List Nat) : Nat :=
  match bodies[address]? with
  | some _ => above parents
  | none => (released[address]?.map height).getD 0

/-- The commits that others name as parents, recovery sources or mainlines. -/
def named : List Address :=
  (bodies.toList.flatMap fun entry => entry.2.parents) ++
    (released.toList.flatMap fun entry => entry.2.parents) ++
    bodies.toList.flatMap fun entry => entry.2.recovery

def heightsOf : Option (Marks Address Nat) :=
  searchAll (parentsIn bodies released) (heightFrom bodies released)
    (turnBound (parentsIn bodies released) (nodesOf bodies released)) (nodesOf bodies released)

end Parts

def HistoryView.parents (view : HistoryView) (address : Address) : List Address :=
  parentsIn view.bodies view.released address

namespace Graph

variable (graph : Graph)

def parents (address : Address) : List Address := parentsIn graph.bodies graph.released address

def height (address : Address) : Nat := (valueAt graph.marks address).getD 0

def row (address : Address) : SkeletonEntry := ⟨address, graph.parents address, graph.height address⟩

def build (view : HistoryView) : Except Error Graph :=
  let bodies := view.bodies
  let released := view.released
  let addresses := view.skeleton.map address
  if ¬ addresses.Nodup ∨ addresses.any (· ∈ bodies) then
    .error (.violated .h7 "a commit is both stored and released, or released twice")
  else
    match (named bodies released).find? fun a => a ∉ bodies ∧ a ∉ released with
    | some commit => .error (.missing commit)
    | none =>
      match heightsOf bodies released with
      | none => .error (.format "commit graph has a cycle")
      | some marks =>
        if bodies.toList.any fun entry =>
            entry.2.storedHeight.any fun stored => stored ≠ (valueAt marks entry.1).getD 0 then
          .error (.format "stored commit height")
        else .ok ⟨bodies, released, marks⟩

end Graph

section Ancestors

variable (parents : Address → List Address)

def stampParent (acc : List Address × ExtTreeSet Address) (parent : Address) :
    List Address × ExtTreeSet Address :=
  if parent ∈ acc.2 then acc else (acc.1 ++ [parent], acc.2.insert parent)

/-- The ancestors found when the queue is empty, and the stamped ones; the budget is what is
left of the allowed number. -/
def ancestorsFrom : Nat → List Address → ExtTreeSet Address → List Address →
    Except Error (List Address × ExtTreeSet Address)
  | _, [], stamp, found => .ok (found, stamp)
  | 0, _ :: _, _, _ => .error (.limit "ancestor count")
  | budget + 1, node :: queue, stamp, found =>
    let next := (parents node).foldl stampParent (queue, stamp)
    ancestorsFrom budget next.1 next.2 (found ++ [node])

def ancestors (start : Address) : Except Error (List Address × ExtTreeSet Address) :=
  ancestorsFrom parents maxAncestors [start] (ExtTreeSet.ofList [start]) []

/-- The common ancestors that are not the parent of another. -/
def mergeBases (a b : Address) : Except Error (List Address) := do
  let (left, _) ← ancestors parents a
  let (_, right) ← ancestors parents b
  let common := left.filter (· ∈ right)
  let dominated := common.flatMap parents
  .ok (common.filter (· ∉ dominated))

end Ancestors

end Dynodoc.Horizon
