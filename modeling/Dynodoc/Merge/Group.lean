import Dynodoc.Document.State
import Mathlib.Data.List.Sort

/-! Grouping of interleaved insertions. -/
namespace Dynodoc.Merge
open Std (ExtTreeMap)

def maxMergedPosBytes : Nat := 200

def placedIn (s : DocumentState) (n : MaterializedNode) : Bool :=
  s.nodes[n.id]?.any fun o => o.parentId = n.parentId ∧ o.pos = n.pos

structure Gap where
  last : Option String
  draft : List MaterializedNode
  previousSide : Option Bool
  switches : Nat
  moves : List (NodeId × String)

/-- The end of a gap, before the given separator or at the end of the siblings. The
draft's blocks go behind the team's last one when the sides alternate twice. -/
def Gap.close (g : Gap) (next : Option MaterializedNode) : Gap :=
  let moves :=
    match g.last.filter fun _ => g.switches ≥ 2 with
    | none => []
    | some last =>
      if g.draft.any fun d => last.utf8ByteSize + d.pos.utf8ByteSize > maxMergedPosBytes then []
      else
        let keys := g.draft.map fun d => (d.id, last ++ d.pos)
        if keys.all fun key => next.all fun n => key.2 < n.pos then keys else []
  ⟨none, [], none, 0, g.moves ++ moves⟩

def Gap.add (team : DocumentState) (g : Gap) (n : MaterializedNode) : Gap :=
  let isTeam := placedIn team n
  { g with
    last := if isTeam then some n.pos else g.last
    draft := if isTeam then g.draft else g.draft ++ [n]
    previousSide := some isTeam
    switches := if g.previousSide.any (· ≠ isTeam) then g.switches + 1 else g.switches }

def groupSiblings (team : DocumentState) (siblings : List (MaterializedNode × Bool)) :
    List (NodeId × String) :=
  let sorted := siblings.insertionSort fun a b =>
    a.1.pos < b.1.pos ∨ (a.1.pos = b.1.pos ∧ a.1.id ≤ b.1.id)
  let gap := sorted.foldl (fun (g : Gap) (n, separates) =>
    if separates then g.close (some n) else g.add team n) ⟨none, [], none, 0, []⟩
  (gap.close none).moves

/-- Live nodes of the result, and the base's places that nothing holds any more. -/
def siblingEntries (base out : DocumentState) : List (MaterializedNode × Bool) :=
  let live (s : DocumentState) := (s.nodes.toList.map Prod.snd).filter fun n => !n.deleted
  ((live out).map fun n => (n, placedIn base n)) ++
  ((live base).filter fun n =>
    out.nodes[n.id]?.all fun merged => merged.deleted || !placedIn base merged).map fun n => (n, true)

def keepRunsTogether (base team out : DocumentState) : DocumentState :=
  let children := (siblingEntries base out).foldl (fun children e =>
    children.insert e.1.parentId (children.getD e.1.parentId [] ++ [e]))
    (∅ : ExtTreeMap (Option NodeId) (List (MaterializedNode × Bool)))
  let moves := children.toList.flatMap fun (_, siblings) => groupSiblings team siblings
  moves.foldl (fun out (id, pos) =>
    match out.nodes[id]? with
    | some n => { out with nodes := out.nodes.insert id { n with pos := pos } }
    | none => out) out

end Dynodoc.Merge
