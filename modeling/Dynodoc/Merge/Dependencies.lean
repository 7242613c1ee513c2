import Dynodoc.Document.Runs
import Dynodoc.Merge.Plan

/-! A selection of changed nodes and what it needs: the operations of a difference that
concern the selected nodes are run alone, without those of the other nodes. -/
namespace Dynodoc
open Std (ExtTreeMap ExtTreeSet)
open RichText
open Loop List DocumentState OrderedMap Entry Option Std.ExtTreeMap Std.ExtTreeSet

variable {env : Externals} {op : EventPayload} {source t team s' : DocumentState}
  {target id : NodeId} {ops : List EventPayload} {parentId exclude : Option NodeId}
  {n : MaterializedNode} {decode : Decode} {e : Entry} {name pos : String} {fuel : Nat}
  {included : ExtTreeSet NodeId}

section Model

variable (ops : List EventPayload) (team : DocumentState)

def isLive (id : NodeId) : Bool :=
  team.nodes[id]?.any fun n => !n.deleted && decide (id ∉ team.removedChoices)

def byNode (id : NodeId) : List EventPayload := ops.filter fun op => op.targetNodeId = some id

def liveChildren (id : NodeId) : List NodeId :=
  ((team.nodes.toList.map Prod.snd).filter fun n =>
    isLive team n.id && decide (n.parentId = some id)).map MaterializedNode.id

def neededParent : EventPayload → Option NodeId
  | .nodeCreated _ _ parentId .. => parentId
  | .nodeMoved _ newParentId _ => newParentId
  | .nodeRestored id => team.nodes[id]?.bind MaterializedNode.parentId
  | _ => none

def neededChildren : EventPayload → List NodeId
  | .nodeDeleted id => liveChildren team id
  | _ => []

def needs (op : EventPayload) : List NodeId :=
  (neededParent team op).toList.filter (fun parent => !isLive team parent) ++
    neededChildren team op

/-- A needed node that is changed is selected too, and looked at later. -/
def enlist (acc : List NodeId × ExtTreeSet NodeId) (need : NodeId) :
    List NodeId × ExtTreeSet NodeId :=
  if (ops.any fun op => op.targetNodeId = some need) ∧ need ∉ acc.2 then
    (need :: acc.1, acc.2.insert need)
  else acc

/-- The stack of nodes to look at, and the selection. -/
def lookAt : List NodeId × ExtTreeSet NodeId →
    Run ((List NodeId × ExtTreeSet NodeId) ⊕ ExtTreeSet NodeId)
  | ([], selected) => .ok (.inr selected)
  | (id :: pending, selected) =>
    .ok (.inl (((byNode ops id).flatMap (needs team)).foldl (enlist ops) (pending, selected)))

def withDependencies (fuel : Nat) (selected : ExtTreeSet NodeId) : Run (ExtTreeSet NodeId) :=
  loop (lookAt ops team) fuel (selected.toList.reverse, selected)

/-- The operations of the nodes in a selection, in their order. -/
def chosen (included : ExtTreeSet NodeId) : List EventPayload :=
  ops.filter fun op => op.targetNodeId.any fun id => decide (id ∈ included)

end Model

variable (acc : List NodeId × ExtTreeSet NodeId)

theorem enlist_cases (need : NodeId) :
    ((∃ op ∈ ops, op.targetNodeId = some need) ∧ need ∉ acc.2 ∧
      enlist ops acc need = (need :: acc.1, acc.2.insert need)) ∨
    ((∀ op ∈ ops, op.targetNodeId = some need → need ∈ acc.2) ∧ enlist ops acc need = acc) := by
  rw [enlist]
  split
  · rename_i new
    obtain ⟨op, mem, target⟩ := any_eq_true.1 new.1
    exact .inl ⟨⟨op, mem, by simpa using target⟩, new.2, rfl⟩
  · rename_i old
    refine .inr ⟨fun op mem target => ?_, rfl⟩
    by_contra absent
    exact old ⟨any_eq_true.2 ⟨op, mem, by simpa using target⟩, absent⟩

/-- What a selection needs: the changed nodes among those that the operations of a needed
node ask for. -/
inductive Needed (ops : List EventPayload) (team : DocumentState) (selected : ExtTreeSet NodeId) :
    NodeId → Prop where
  | selected {id : NodeId} (mem : id ∈ selected) : Needed ops team selected id
  | need {id need : NodeId} {op other : EventPayload} (asking : Needed ops team selected id)
      (mem : op ∈ ops) (own : op.targetNodeId = some id) (asks : need ∈ needs team op)
      (mem' : other ∈ ops) (changed : other.targetNodeId = some need) : Needed ops team selected need

/-- What the needs of one node add: they are selected if they are changed, and what is
added to the selection is looked at. Nothing else is added. -/
structure Enlisted (ops : List EventPayload) (needed : List NodeId)
    (before after : List NodeId × ExtTreeSet NodeId) : Prop where
  kept : ∀ id ∈ before.2, id ∈ after.2
  waits : ∀ id ∈ before.1, id ∈ after.1
  added : ∀ id ∈ after.2, id ∈ before.2 ∨ id ∈ after.1
  origin : ∀ id, id ∈ after.1 ∨ id ∈ after.2 → (id ∈ before.1 ∨ id ∈ before.2) ∨
    id ∈ needed ∧ ∃ op ∈ ops, op.targetNodeId = some id
  all : ∀ need ∈ needed, ∀ op ∈ ops, op.targetNodeId = some need → need ∈ after.2

theorem enlisted (needed : List NodeId) (acc : List NodeId × ExtTreeSet NodeId) :
    Enlisted ops needed acc (needed.foldl (enlist ops) acc) := by
  induction needed generalizing acc with
  | nil => exact ⟨fun _ => id, fun _ => id, fun _ => .inl, fun _ => .inl, by simp⟩
  | cons need needed ih =>
    have rest := ih (enlist ops acc need)
    rw [foldl_cons]
    rcases enlist_cases acc need with ⟨changed, -, same⟩ | ⟨old, same⟩
    · rw [same] at rest ⊢
      refine ⟨fun id mem => rest.kept id (by simp [mem]), fun id mem => rest.waits id (by simp [mem]),
        fun id mem => ?_, fun id mem => ?_, fun other mem op inOps target => ?_⟩
      · rcases rest.added id mem with before | after
        · rcases mem_insert.1 before with eq | before
          · obtain rfl := Std.compare_eq_iff_eq.1 eq
            exact .inr (rest.waits need (by simp))
          · exact .inl before
        · exact .inr after
      · rcases rest.origin id mem with before | ⟨isNeed, changed'⟩
        · by_cases here : id = need
          · subst here
            exact .inr ⟨mem_cons_self, changed⟩
          · have other : need ≠ id := fun same => here same.symm
            exact .inl (by simpa [here, other] using before)
        · exact .inr ⟨mem_cons_of_mem _ isNeed, changed'⟩
      · rcases mem_cons.1 mem with rfl | mem
        · exact rest.kept other (by simp)
        · exact rest.all other mem op inOps target
    · rw [same] at rest ⊢
      refine ⟨rest.kept, rest.waits, rest.added, fun id mem => ?_, fun other mem op inOps target => ?_⟩
      · exact (rest.origin id mem).imp_right (And.imp_left (mem_cons_of_mem _))
      · rcases mem_cons.1 mem with rfl | mem
        · exact rest.kept other (old op inOps target)
        · exact rest.all other mem op inOps target

/-- A node whose needs are selected as far as they are changed. -/
def Handled (ops : List EventPayload) (team : DocumentState) (selected : ExtTreeSet NodeId)
    (id : NodeId) : Prop :=
  ∀ op ∈ ops, op.targetNodeId = some id → ∀ need ∈ needs team op,
    ∀ other ∈ ops, other.targetNodeId = some need → need ∈ selected

/-- What the loop keeps: only needed nodes are selected, and what is selected is on the stack
or has its needs selected too. -/
structure Closing (ops : List EventPayload) (team : DocumentState) (selected : ExtTreeSet NodeId)
    (state : List NodeId × ExtTreeSet NodeId) : Prop where
  start : ∀ id ∈ selected, id ∈ state.2
  needed : ∀ id, id ∈ state.1 ∨ id ∈ state.2 → Needed ops team selected id
  seen : ∀ id ∈ state.2, id ∈ state.1 ∨ Handled ops team state.2 id

theorem Closing.next {selected now : ExtTreeSet NodeId} {top : NodeId} {pending : List NodeId}
    (closing : Closing ops team selected (top :: pending, now)) : Closing ops team selected
      (((byNode ops top).flatMap (needs team)).foldl (enlist ops) (pending, now)) := by
  have more := @enlisted ops ((byNode ops top).flatMap (needs team)) (pending, now)
  refine ⟨fun id mem => more.kept id (closing.start id mem), fun id mem => ?_, fun id mem => ?_⟩
  · rcases more.origin id mem with before | ⟨isNeed, other, inOps', changed⟩
    · exact closing.needed id (before.imp_left (mem_cons_of_mem _))
    · obtain ⟨op, inNode, asks⟩ := mem_flatMap.1 isNeed
      obtain ⟨inOps, own⟩ := mem_filter.1 inNode
      have asking := closing.needed top (.inl mem_cons_self)
      exact .need asking inOps (by simpa using own) asks inOps' changed
  · rcases more.added id mem with before | after
    · rcases closing.seen id before with waits | handled
      · rcases mem_cons.1 waits with rfl | waits
        · refine .inr fun op inOps target need needed => more.all need ?_
          exact mem_flatMap.2 ⟨op, mem_filter.2 ⟨inOps, by simpa using target⟩, needed⟩
        · exact .inl (more.waits id waits)
      · exact .inr fun op inOps target need needed other inOps' target' =>
          more.kept need (handled op inOps target need needed other inOps' target')
    · exact .inl after

/-- The closure that is computed is the set of what is needed. -/
theorem mem_withDependencies {selected : ExtTreeSet NodeId}
    (closed : withDependencies ops team fuel selected = .ok included) :
    (∀ id, id ∈ included ↔ Needed ops team selected id) ∧
      ∀ id ∈ included, Handled ops team included id := by
  have closing : Closing ops team selected ([], included) := by
    rw [withDependencies] at closed
    refine loop_post (Closing ops team selected)
      (fun included => Closing ops team selected ([], included)) ?_ ?_ ?_ closed
    · rintro ⟨pending, now⟩ next closing step
      cases pending with
      | nil => cases step
      | cons top pending =>
        cases step
        exact closing.next
    · rintro ⟨pending, now⟩ result closing step
      cases pending with
      | nil =>
        cases step
        exact closing
      | cons top pending => cases step
    · refine ⟨fun _ => id, fun id mem => .selected ?_, fun id mem => ?_⟩
      · simpa using mem
      · exact .inl (by simpa using mem_toList.2 mem)
  have handled : ∀ id ∈ included, Handled ops team included id :=
    fun id mem => (closing.seen id mem).resolve_left (by simp)
  refine ⟨fun id => ⟨fun mem => closing.needed id (.inr mem), fun isNeeded => ?_⟩, handled⟩
  induction isNeeded with
  | selected mem => exact closing.start _ mem
  | need _ mem own asks mem' changed ih => exact handled _ ih _ mem own _ asks _ mem' changed

def unselected (ops : List EventPayload) (selected : ExtTreeSet NodeId) : Nat :=
  (ops.filterMap EventPayload.targetNodeId).countP fun id => id ∉ selected

theorem enlist_measure (needed : List NodeId) :
    2 * unselected ops (needed.foldl (enlist ops) acc).2 + (needed.foldl (enlist ops) acc).1.length ≤
      2 * unselected ops acc.2 + acc.1.length := by
  induction needed generalizing acc with
  | nil => exact Nat.le_refl _
  | cons need needed ih =>
    refine Nat.le_trans (ih (enlist ops acc need)) ?_
    rcases @enlist_cases ops acc need with ⟨⟨op, mem, target⟩, new, same⟩ | ⟨-, same⟩
    · rw [same]
      have fewer : unselected ops (acc.2.insert need) < unselected ops acc.2 := by
        refine countP_lt (mem_filterMap.2 ⟨op, mem, target⟩) (by simp) (by simpa using new) ?_
        intro other _ unselected
        simp only [ExtTreeSet.mem_insert, not_or, decide_eq_true_eq] at unselected ⊢
        exact unselected.2
      simp only [length_cons]
      omega
    · rw [same]

theorem withDependencies_ends (ops : List EventPayload) (team : DocumentState)
    (selected : ExtTreeSet NodeId) :
    ∃ included bound, ∀ fuel ≥ bound, withDependencies ops team fuel selected = .ok included := by
  have settles : Settles fun fuel => withDependencies ops team fuel selected := by
    refine Settles.loop (fun _ => True) (fun state => 2 * unselected ops state.2 + state.1.length)
      ?_ ?_ trivial
    · rintro ⟨pending, now⟩ -
      cases pending <;> simp [lookAt]
    · rintro ⟨pending, now⟩ next - step
      cases pending with
      | nil => cases step
      | cons top pending =>
        cases step
        have bound := @enlist_measure ops (pending, now)
          ((byNode ops top).flatMap (needs team))
        exact ⟨trivial, Nat.lt_of_le_of_lt bound (by simp)⟩
  refine settles.returns fun fuel => loop_ne_panic ?_ fuel _
  rintro ⟨pending, now⟩
  cases pending <;> simp [lookAt]

theorem changedNode_of_isLocal (isLocal : op.isLocal) :
    op.changedNode = op.targetNodeId ∧ ∃ id, op.targetNodeId = some id := by
  cases op <;> first | exact ⟨rfl, _, rfl⟩ | contradiction

namespace Diff

theorem isLocal_of_mem_phased
    (all : ∀ op ∈ ops, op.isLocal) : ∀ op ∈ phased source ops, op.isLocal := by
  intro piece mem
  rw [phased_eq, mem_append, mem_append] at mem
  rcases mem with (mem | mem) | mem
  · obtain ⟨id, v, rfl, -⟩ := mem_unlocks source mem
    rfl
  · obtain ⟨op, inOps, inPieces⟩ := mem_flatMap.1 mem
    rcases pieces_cases source op with ⟨id, v, rfl, ⟨-, same⟩ | same⟩ |
      ⟨_, _, _, _, _, _, -, -, same⟩ | same <;> simp [same] at inPieces
    · rw [inPieces]
      rfl
    · rw [inPieces]
      exact all op inOps
  · obtain ⟨id, v, rfl, -⟩ := mem_locks source mem
    rfl

theorem diff_isLocal {target : DocumentState}
    (planned : diff env fuel source target = .ok (.ok ops)) : ∀ op ∈ ops, op.isLocal := by
  obtain ⟨stages⟩ := diff_stages planned
  rw [stages.result]
  refine isLocal_of_mem_phased fun op mem => ?_
  rw [mem_append, mem_append] at mem
  rcases mem with (mem | mem) | mem
  · obtain ⟨⟨part, waiting⟩, inParts, inPart⟩ := mem_flatMap.1 mem
    obtain ⟨n, -, taken⟩ := exists_left_of_mem stages.taken inParts
    exact (nodeOps_target taken inPart).1
  · obtain ⟨n, -, rfl⟩ := mem_map.1 mem
    rfl
  · obtain ⟨w, inLater, rfl⟩ := mem_map.1 ((laterOps_perm stages.released).mem_iff.1 mem)
    obtain ⟨⟨part, waiting⟩, inParts, rfl⟩ := mem_filterMap.1 inLater
    obtain ⟨n, -, taken⟩ := exists_left_of_mem stages.taken inParts
    obtain ⟨_, _, -, -, -, rfl⟩ := nameLater_eq_some.1 (nodeOps_waiting taken w rfl)
    rfl

end Diff

section Steps

variable {s : DocumentState}

/-- An operation creates its node, or the node was there and keeps its type and id, and its parent
unless it is moved. -/
theorem apply_cases {e' : Entry} (isLocal : op.isLocal) (applied : e.apply env op = .ok e') :
    (∃ id nodeType parentId pos fields varName, op = .nodeCreated id nodeType parentId pos fields varName ∧
      ∃ m, e'.node = some m ∧ m.id = id ∧ m.parentId = parentId) ∨
    ∃ n m, e.node = some n ∧ e'.node = some m ∧ m.id = n.id ∧ m.nodeType = n.nodeType ∧
      (m.parentId = n.parentId ∨ ∃ id pos, op = .nodeMoved id m.parentId pos) := by
  cases op with
  | nodeCreated =>
    cases applied
    exact .inl ⟨_, _, _, _, _, _, rfl, _, rfl, rfl, rfl⟩
  | fieldEdited =>
    obtain ⟨n, m, before, edited, rfl⟩ := update_eq_ok applied
    simp only [editNode] at edited
    split at edited
    · contradiction
    cases edited
    refine .inr ⟨n, _, before, rfl, ?_⟩
    split <;> exact ⟨rfl, rfl, .inl rfl⟩
  | richTextPatched =>
    obtain ⟨n, m, before, patched, rfl⟩ := update_eq_ok applied
    simp only [patchNode] at patched
    repeat' split at patched
    all_goals cases patched
    exact .inr ⟨n, _, before, rfl, rfl, rfl, .inl rfl⟩
  | nodeMoved id _ pos =>
    obtain ⟨n, m, before, moved, rfl⟩ := update_eq_ok applied
    cases moved
    exact .inr ⟨n, _, before, rfl, rfl, rfl, .inr ⟨id, pos, rfl⟩⟩
  | nodeDeleted =>
    obtain ⟨n, m, before, deleted, rfl⟩ := update_eq_ok applied
    cases deleted
    exact .inr ⟨n, _, before, rfl, rfl, rfl, .inl rfl⟩
  | nodeRestored =>
    obtain ⟨_, updated, rfl⟩ := map_eq_ok.1 applied
    obtain ⟨n, m, before, restored, rfl⟩ := update_eq_ok updated
    cases restored
    exact .inr ⟨n, _, before, rfl, rfl, rfl, .inl rfl⟩
  | _ => contradiction

end Steps

section FullRun

variable {s : DocumentState} {done : List EventPayload}

/-- An operation has put the node under its parent: it was moved, or it is new. -/
def Placed (team : DocumentState) (done : List EventPayload) (id : NodeId)
    (parentId : Option NodeId) : Prop :=
  (∃ pos, .nodeMoved id parentId pos ∈ done) ∨
    team.nodes[id]? = none ∧ ∃ nodeType pos fields varName,
      .nodeCreated id nodeType parentId pos fields varName ∈ done

theorem Placed.append (placed : Placed team done id parentId)
    (more : List EventPayload) : Placed team (done ++ more) id parentId := by
  rcases placed with ⟨pos, mem⟩ | ⟨absent, nodeType, pos, fields, varName, mem⟩
  · exact .inl ⟨pos, mem_append_left _ mem⟩
  · exact .inr ⟨absent, nodeType, pos, fields, varName, mem_append_left _ mem⟩

/-- What is known of a state after valid operations. -/
structure Since (team : DocumentState) (done : List EventPayload) (s : DocumentState) : Prop where
  keyed : Keyed s.nodes
  untouched : ∀ id, (∀ op ∈ done, op.targetNodeId ≠ some id) → s.entry id = team.entry id
  stays : ∀ (id : NodeId) (n : MaterializedNode), team.nodes[id]? = some n →
    ∃ m, s.nodes[id]? = some m ∧ m.nodeType = n.nodeType
  placed : ∀ (id : NodeId) (m : MaterializedNode), s.nodes[id]? = some m →
    (∃ n, team.nodes[id]? = some n ∧ n.parentId = m.parentId) ∨ Placed team done id m.parentId

theorem since_start (keyed : Keyed team.nodes) : Since team [] team where
  keyed := keyed
  untouched := fun _ _ => rfl
  stays := fun _ n stored => ⟨n, stored, rfl⟩
  placed := fun _ m stored => .inl ⟨m, stored, rfl⟩

theorem getElem?_of_entry (same : t.entry id = s.entry id) :
    t.nodes[id]? = s.nodes[id]? := congrArg node same

theorem mem_of_entry (same : t.entry id = s.entry id) :
    id ∈ t.removedChoices ↔ id ∈ s.removedChoices := by
  have listed := congrArg removed same
  simpa [entry] using listed

theorem Since.step (since : Since team done s) (isLocal : op.isLocal)
    (valid : validateOp env decode s op = .ok ()) (applied : applyPayload env s op = .ok s') :
    Since team (done ++ [op]) s' := by
  obtain ⟨-, key, target⟩ := changedNode_of_isLocal isLocal
  obtain ⟨e, here, own, elsewhere⟩ :=
    entry_of_applyPayload ((changedNode_of_isLocal isLocal).1.trans target) applied
  have now : s'.nodes[key]? = e.node := congrArg node own
  -- the node of the operation, before and after
  have turn : ∃ m, s'.nodes[key]? = some m ∧ m.id = key ∧
      ((s.nodes[key]? = none ∧ Placed team (done ++ [op]) key m.parentId) ∨
        ∃ n, s.nodes[key]? = some n ∧ m.nodeType = n.nodeType ∧
          (m.parentId = n.parentId ∨ Placed team (done ++ [op]) key m.parentId)) := by
    rw [now]
    rcases apply_cases isLocal here with ⟨_, _, _, _, _, _, rfl, m, after, rfl, rfl⟩ |
      ⟨n, m, before, after, sameId, sameType, place⟩
    · cases target
      have absent := OrderedMap.getElem?_eq_none_iff.2 (of_validateNodeCreated valid).1
      refine ⟨m, after, rfl, .inl ⟨absent, .inr ⟨?_, _, _, _, _, mem_append_right _ mem_cons_self⟩⟩⟩
      by_contra present
      obtain ⟨n, start⟩ := ne_none_iff_exists'.1 present
      obtain ⟨m', stays, -⟩ := since.stays m.id n start
      rw [absent] at stays
      contradiction
    · refine ⟨m, after, sameId.trans (since.keyed key n before), .inr ⟨n, before, sameType, ?_⟩⟩
      refine place.imp_right ?_
      rintro ⟨_, pos, rfl⟩
      cases target
      exact .inl ⟨pos, mem_append_right _ mem_cons_self⟩
  obtain ⟨m', after, ownId, turn⟩ := turn
  have gone (id : NodeId) (other : id ≠ key) : s'.nodes[id]? = s.nodes[id]? :=
    getElem?_of_entry (elsewhere id other)
  refine ⟨?_, ?_, ?_, ?_⟩
  · intro id m stored
    by_cases same : id = key
    · subst same
      rw [after] at stored
      cases stored
      exact ownId
    · rw [gone id same] at stored
      exact since.keyed id m stored
  · intro id others
    have other : id ≠ key := by
      rintro rfl
      exact others op (by simp) target
    rw [elsewhere id other]
    exact since.untouched id fun op mem => others op (by simp [mem])
  · intro id n stored
    obtain ⟨m, present, sameType⟩ := since.stays id n stored
    by_cases same : id = key
    · subst same
      rcases turn with ⟨absent, -⟩ | ⟨n', before, type, -⟩
      · rw [present] at absent
        contradiction
      · rw [present] at before
        cases before
        exact ⟨m', after, type.trans sameType⟩
    · exact ⟨m, (gone id same).trans present, sameType⟩
  · intro id m stored
    have earlier (n : MaterializedNode) (before : s.nodes[id]? = some n)
        (same : m.parentId = n.parentId) :
        (∃ n, team.nodes[id]? = some n ∧ n.parentId = m.parentId) ∨
          Placed team (done ++ [op]) id m.parentId := by
      rw [same]
      exact (since.placed id n before).imp_right fun placed => placed.append [op]
    by_cases same : id = key
    · subst same
      rw [after] at stored
      cases stored
      obtain ⟨-, place⟩ | ⟨n, before, -, kept | place⟩ := turn
      · exact .inr place
      · exact earlier n before kept
      · exact .inr place
    · rw [gone id same] at stored
      exact earlier m stored rfl

end FullRun

/-- The name that a node has after an operation that brings it a name. -/
def takenName (s : DocumentState) : EventPayload → Option String
  | .nodeCreated _ _ _ _ _ varName => varName
  | .fieldEdited _ field value =>
    if field = "var_name" ∨ field = "varName" then value.asStr else none
  | .nodeRestored id => s.nodes[id]?.bind MaterializedNode.varName
  | _ => none

/-- The tree where only the needed nodes have changed. -/
def Mixed (needed : NodeId → Prop) (team s : DocumentState) (child parent : NodeId) : Prop :=
  (needed child ∧ s.parentOf child = some parent) ∨
    (¬ needed child ∧ team.parentOf child = some parent)

/-- What an operation of a needed node still asks for where only the needed nodes have
changed: a name that it brings is not the name of another node, and its new parent is not
below the node it moves. -/
structure Fits (needed : NodeId → Prop) (team s : DocumentState) (op : EventPayload) : Prop where
  name : ∀ (name : String) (id : NodeId) (n : MaterializedNode), takenName s op = some name →
    name ≠ "" → team.nodes[id]? = some n → n.deleted = false → n.varName = some name → needed id
  move : ∀ (id parent : NodeId) (pos : String), op = .nodeMoved id (some parent) pos →
    ¬ Relation.TransGen (Mixed needed team s) parent id

/-- Each operation of a needed node fits when its turn comes in the whole list. -/
def Spared (env : Externals) (team : DocumentState) (ops : List EventPayload)
    (needed : NodeId → Prop) : Prop :=
  ∀ (done rest : List EventPayload) (op : EventPayload) (s : DocumentState) (target : NodeId),
    ops = done ++ op :: rest → applyAll env team done = .ok s → op.targetNodeId = some target →
    needed target → Fits needed team s op

section PartialRun

variable {s : DocumentState} {done : List EventPayload}

/-- The partial run has the selected nodes as the full run has them, and the others as they
were at the start. -/
structure PartOf (team s t : DocumentState) (included : ExtTreeSet NodeId) : Prop where
  inside : ∀ id ∈ included, t.entry id = s.entry id
  outside : ∀ id, id ∉ included → t.entry id = team.entry id

theorem requirePresent_congr (same : t.entry id = s.entry id) :
    requirePresent t id = requirePresent s id := by
  rw [requirePresent, requirePresent, getElem?_of_entry same]

theorem requireLive_congr (same : t.entry id = s.entry id) : requireLive t id = requireLive s id := by
  simp [requireLive, requirePresent_congr same, mem_of_entry same]

theorem requireNotRemoved_congr (same : t.entry id = s.entry id) :
    requireNotRemoved t id = requireNotRemoved s id := by
  simp [requireNotRemoved, mem_of_entry same]

theorem isLive_iff : isLive team id = true ↔ ∃ n, team.LiveAt id n := by
  simp only [isLive, Option.any_eq_true]
  constructor
  · rintro ⟨n, stored, live⟩
    exact ⟨n, stored, by simpa using live⟩
  · rintro ⟨n, stored, live⟩
    exact ⟨n, stored, by simpa using live⟩

/-- What the proofs for one operation share: it is an operation of the list, its node is
selected, and the partial run partOf the full one. -/
structure AtTurn (ops done : List EventPayload) (included : ExtTreeSet NodeId)
    (team s t : DocumentState) : Prop where
  within : ∀ op ∈ done, op ∈ ops
  isLocal : ∀ op ∈ ops, op.isLocal
  closed : ∀ id ∈ included, Handled ops team included id
  start : Keyed team.nodes
  since : Since team done s
  partOf : PartOf team s t included

variable (turn : AtTurn ops done included team s t)

include turn

theorem AtTurn.changed (changed : t.entry id ≠ s.entry id) :
    id ∉ included ∧ t.entry id = team.entry id ∧ ∃ op ∈ ops, op.targetNodeId = some id := by
  have out : id ∉ included := fun mem => changed (turn.partOf.inside id mem)
  refine ⟨out, turn.partOf.outside id out, ?_⟩
  by_contra none
  refine changed ((turn.partOf.outside id out).trans (turn.since.untouched id ?_).symm)
  exact fun op mem target => none ⟨op, turn.within op mem, target⟩

section Selected

variable (selected : target ∈ included) (own : op.targetNodeId = some target)
include selected own

/-- A parent that a selected operation names is there as in the full run, or is live from
the start. -/
theorem AtTurn.parent {parent : NodeId} (mem : op ∈ ops)
    (named : neededParent team op = some parent) : t.entry parent = s.entry parent ∨
      ∃ n, team.LiveAt parent n ∧ t.entry parent = team.entry parent := by
  by_cases same : t.entry parent = s.entry parent
  · exact .inl same
  · obtain ⟨out, start, other, inOps, target'⟩ := turn.changed same
    cases live : isLive team parent with
    | true =>
      obtain ⟨n, live⟩ := isLive_iff.1 live
      exact .inr ⟨n, live, start⟩
    | false =>
      refine absurd (turn.closed target selected op mem own parent ?_ other inOps target') out
      rw [needs, named]
      simp [live]

/-- So it is live in the partial run if it is in the full one, and has the same type. -/
theorem AtTurn.parent_live {parent : NodeId} {p : MaterializedNode}
    (mem : op ∈ ops) (named : neededParent team op = some parent) (live : s.LiveAt parent p) :
    ∃ q, t.LiveAt parent q ∧ q.nodeType = p.nodeType := by
  rcases turn.parent selected own mem named with same | ⟨n, before, same⟩
  · rw [← requireLive_eq_ok, ← requireLive_congr same, requireLive_eq_ok] at live
    exact ⟨p, live, rfl⟩
  · obtain ⟨m, stored, type⟩ := turn.since.stays parent n before.1
    rw [live.1] at stored
    cases stored
    refine ⟨n, ?_, type.symm⟩
    rw [← requireLive_eq_ok, requireLive_congr same, requireLive_eq_ok]
    exact before

end Selected

theorem AtTurn.free (fits : Fits (· ∈ included) team s op)
    (takes : takenName s op = some name) (used : name ≠ "") (free : NameFree s name exclude) :
    NameFree t name exclude := by
  intro id n stored live named
  by_cases mem : id ∈ included
  · rw [getElem?_of_entry (turn.partOf.inside id mem)] at stored
    exact free id n stored live named
  · rw [getElem?_of_entry (turn.partOf.outside id mem)] at stored
    exact absurd (fits.name name id n takes used stored live named) mem

/-- Where a name is free but for one selected node, who has it at the start is selected. -/
theorem AtTurn.included_of_free (selected : ∀ id, exclude = some id → id ∈ included)
    (free : NameFree t name exclude) (stored : team.nodes[id]? = some n) (live : n.deleted = false)
    (named : n.varName = some name) : id ∈ included := by
  by_contra out
  rw [← getElem?_of_entry (turn.partOf.outside id out)] at stored
  have same := free id n stored live named
  rw [getElem?_of_entry (turn.partOf.outside id out)] at stored
  rw [turn.start id n stored] at same
  exact out (selected id same.symm)

theorem AtTurn.mixed (child parent : NodeId) :
    Mixed (· ∈ included) team s child parent ↔ t.parentOf child = some parent := by
  by_cases mem : child ∈ included
  · simp [Mixed, mem, parentOf, getElem?_of_entry (turn.partOf.inside child mem)]
  · simp [Mixed, mem, parentOf, getElem?_of_entry (turn.partOf.outside child mem)]

theorem AtTurn.below_iff {parent : NodeId} : isDescendantOf t parent id = true ↔
    Relation.TransGen (Mixed (· ∈ included) team s) parent id := by
  have same : Mixed (· ∈ included) team s = fun child parent => t.parentOf child = some parent :=
    funext fun child => funext fun parent => propext (turn.mixed child parent)
  rw [same, isDescendantOf_iff]

theorem AtTurn.valid_created {nodeType : NodeType}
    {fields : Value} {varName : Option String}
    (mem : .nodeCreated id nodeType parentId pos fields varName ∈ ops) (selected : id ∈ included)
    (fits : Fits (· ∈ included) team s (.nodeCreated id nodeType parentId pos fields varName))
    (valid : validateNodeCreated s id nodeType parentId varName = .ok ()) :
    validateNodeCreated t id nodeType parentId varName = .ok () := by
  obtain ⟨fresh, inside, free⟩ := of_validateNodeCreated valid
  refine validateNodeCreated_ok ?_ ?_ ?_ ?_
  · rw [← OrderedMap.getElem?_eq_none_iff,
      getElem?_of_entry (turn.partOf.inside id selected), OrderedMap.getElem?_eq_none_iff]
    exact fresh
  · rintro rfl
    simp only [validateNodeCreated, if_neg fresh] at valid
    split at valid
    · assumption
    · contradiction
  · rintro parent rfl
    obtain ⟨p, stored, live, allowed⟩ := inside parent rfl
    rcases turn.parent selected rfl mem rfl with same | ⟨n, before, same⟩
    · exact ⟨p, (getElem?_of_entry same).trans stored, live, allowed⟩
    · obtain ⟨m, present, type⟩ := turn.since.stays parent n before.1
      rw [stored] at present
      cases present
      refine ⟨n, (getElem?_of_entry same).trans before.1, before.2.1, ?_⟩
      rw [← type]
      exact allowed
  · intro used
    refine turn.free fits ?_ used (free used)
    cases varName with
    | none => simp at used
    | some name => rfl

theorem AtTurn.valid_moved {newParentId : Option NodeId}
    (mem : .nodeMoved id newParentId pos ∈ ops) (selected : id ∈ included)
    (fits : Fits (· ∈ included) team s (.nodeMoved id newParentId pos))
    (valid : validateNodeMoved s id newParentId = .ok ()) :
    validateNodeMoved t id newParentId = .ok () := by
  have own := turn.partOf.inside id selected
  rw [validateNodeMoved, requireNotRemoved_congr own, requirePresent_congr own]
  have inside := of_validateNodeMoved valid
  obtain ⟨⟨⟩, kept, valid⟩ := bind_eq_ok.1 valid
  obtain ⟨n, stored, valid⟩ := bind_eq_ok.1 valid
  rw [kept, stored]
  cases newParentId with
  | none => exact valid
  | some parent =>
    obtain ⟨n', stored', inside⟩ := inside
    rw [requirePresent_eq_ok, stored'] at stored
    cases stored
    obtain ⟨p, live, allowed, other, -⟩ := inside parent rfl
    obtain ⟨q, live', type⟩ := turn.parent_live selected rfl mem rfl live
    have apart : isDescendantOf t parent id = false :=
      Bool.eq_false_iff.2 fun found => fits.move id parent pos rfl (turn.below_iff.1 found)
    rw [← type] at allowed
    simp [requireLive_eq_ok.2 live', requireContainment_ok allowed, other, apart, Bind.bind,
      Except.bind]

theorem AtTurn.valid_restored (mem : .nodeRestored id ∈ ops) (selected : id ∈ included)
    (fits : Fits (· ∈ included) team s (.nodeRestored id))
    (valid : validateNodeRestored s id = .ok ()) : validateNodeRestored t id = .ok () := by
  have own := turn.partOf.inside id selected
  have inside := of_validateNodeRestored valid
  obtain ⟨n, stored, valid⟩ := bind_eq_ok.1 valid
  rw [requirePresent_eq_ok] at stored
  obtain ⟨n', stored', inside, free⟩ := inside
  rw [stored] at stored'
  cases stored'
  refine validateNodeRestored_ok ((getElem?_of_entry own).trans stored) ?_ ?_ ?_
  · rw [mem_of_entry own]
    obtain ⟨dead, valid⟩ := guard_eq_ok.1 valid
    rw [not_and_or, not_not] at dead
    exact dead.imp_left fun dead => by simpa using dead
  · intro parent place
    obtain ⟨p, live⟩ := inside parent place
    -- the parent is the first one, or the one that an operation has given since
    have given : (∃ n, team.nodes[id]? = some n ∧ n.parentId = some parent) ∨
        Placed team done id (some parent) := by
      rw [← place]
      exact turn.since.placed id n stored
    rcases given with ⟨n', start, same⟩ | ⟨pos, inDone⟩ | ⟨-, nodeType, pos, fields, varName, inDone⟩
    · have named : neededParent team (.nodeRestored id) = some parent := by
        rw [neededParent, start, bind_some, same]
      obtain ⟨q, live', -⟩ := turn.parent_live selected rfl mem named live
      exact ⟨q, live'⟩
    · obtain ⟨q, live', -⟩ := turn.parent_live selected rfl (turn.within _ inDone) rfl live
      exact ⟨q, live'⟩
    · obtain ⟨q, live', -⟩ := turn.parent_live selected rfl (turn.within _ inDone) rfl live
      exact ⟨q, live'⟩
  · intro used
    refine turn.free fits ?_ used (free used)
    rw [takenName, stored, bind_some]
    cases name : n.varName with
    | none => simp [name] at used
    | some name => rfl

theorem AtTurn.valid_deleted (mem : .nodeDeleted id ∈ ops) (selected : id ∈ included)
    (valid : validateNodeDeleted s id = .ok ()) : validateNodeDeleted t id = .ok () := by
  have own := turn.partOf.inside id selected
  obtain ⟨n, stored, childless⟩ := of_validateNodeDeleted valid
  refine validateNodeDeleted_ok ((getElem?_of_entry own).trans stored) ?_ ?_
  · rw [validateNodeDeleted] at valid
    obtain ⟨-, valid⟩ := guard_eq_ok.1 valid
    obtain ⟨n', stored', valid⟩ := bind_eq_ok.1 valid
    rw [requirePresent_eq_ok, stored] at stored'
    cases stored'
    obtain ⟨live, valid⟩ := guard_eq_ok.1 valid
    simpa using live
  · intro child m present inside live
    by_cases same : t.entry child = s.entry child
    · have before := (getElem?_of_entry same).symm.trans present
      have key := turn.since.keyed child m before
      rw [key, mem_of_entry same, ← key]
      exact childless child m before inside live
    · -- a child from the start would be selected
      obtain ⟨out, start, op, inOps, target⟩ := turn.changed same
      rw [getElem?_of_entry start] at present
      obtain rfl := turn.start child m present
      rw [mem_of_entry start]
      by_contra kept
      refine out (turn.closed id selected _ mem rfl m.id ?_ op inOps target)
      have alive : isLive team m.id = true := isLive_iff.2 ⟨m, present, live, kept⟩
      have stored : (m.id, m) ∈ team.nodes.toList :=
        mem_toList_iff_getElem?_eq_some.2 present
      refine mem_append_right _ (mem_map_of_mem (mem_filter.2 ⟨?_, ?_⟩))
      · exact mem_map_of_mem stored
      · simp [alive, inside]

theorem AtTurn.valid_edited {field : String} {value : Value}
    (selected : id ∈ included) (fits : Fits (· ∈ included) team s (.fieldEdited id field value))
    (valid : validateFieldEdited s id field value = .ok ()) :
    validateFieldEdited t id field value = .ok () := by
  have own := turn.partOf.inside id selected
  simp only [validateFieldEdited, requireNotRemoved_congr own, requirePresent_congr own,
    requireLive_congr own] at valid ⊢
  obtain ⟨⟨⟩, kept, valid⟩ := bind_eq_ok.1 valid
  rw [kept]
  by_cases isName : field = "var_name" ∨ field = "varName"
  · rw [if_pos isName] at valid
    obtain ⟨n, stored, valid⟩ := bind_eq_ok.1 valid
    simp only [if_pos isName, stored]
    cases text : value.asStr with
    | none =>
      rw [text] at valid
      contradiction
    | some name =>
      rw [text] at valid
      refine requireFree_ok fun used => turn.free fits ?_ used (of_requireFree valid used)
      rw [takenName, if_pos isName, text]
  · rw [if_neg isName] at valid ⊢
    exact valid

theorem AtTurn.valid (mem : op ∈ ops) (target : op.targetNodeId = some id)
    (selected : id ∈ included) (fits : Fits (· ∈ included) team s op)
    (valid : validateOp env decode s op = .ok ()) : validateOp env decode t op = .ok () := by
  have isLocal := turn.isLocal op mem
  cases op with
  | nodeCreated => cases target; exact turn.valid_created mem selected fits valid
  | nodeMoved => cases target; exact turn.valid_moved mem selected fits valid
  | nodeRestored => cases target; exact turn.valid_restored mem selected fits valid
  | nodeDeleted => cases target; exact turn.valid_deleted mem selected valid
  | fieldEdited => cases target; exact turn.valid_edited selected fits valid
  | richTextPatched =>
    cases target
    simp only [validateOp, validateDirect] at valid ⊢
    rw [requireLive_congr (turn.partOf.inside id selected)]
    exact valid
  | _ => contradiction

/-- What passes the check in the partial run fits. -/
theorem AtTurn.fits (mem : op ∈ ops) (target : op.targetNodeId = some id)
    (selected : id ∈ included) (valid : validateOp env decode t op = .ok ()) :
    Fits (· ∈ included) team s op := by
  have isLocal := turn.isLocal op mem
  have own : ∀ other, some id = some other → other ∈ included := by
    rintro _ ⟨⟩
    exact selected
  cases op with
  | nodeCreated =>
    obtain ⟨-, -, free⟩ := of_validateNodeCreated valid
    refine ⟨fun name other n takes used stored live named => ?_, by simp⟩
    simp only [takenName] at takes
    rw [takes, getD_some] at free
    exact turn.included_of_free (by simp) (free used) stored live named
  | nodeMoved =>
    cases target
    refine ⟨by simp [takenName], fun _ parent _ same => ?_⟩
    cases same
    have passed : validateNodeMoved t id (some parent) = .ok () := valid
    obtain ⟨n, -, inside⟩ := of_validateNodeMoved passed
    obtain ⟨-, -, -, -, outside⟩ := inside parent rfl
    exact fun below => Bool.eq_false_iff.1 outside (turn.below_iff.2 below)
  | nodeRestored =>
    cases target
    obtain ⟨n, here, -, free⟩ := of_validateNodeRestored valid
    refine ⟨fun name other n' takes used stored live named => ?_, by simp⟩
    rw [getElem?_of_entry (turn.partOf.inside id selected)] at here
    rw [takenName, here, bind_some] at takes
    rw [takes, getD_some] at free
    exact turn.included_of_free own (free used) stored live named
  | fieldEdited _ field value =>
    cases target
    refine ⟨fun name other n takes used stored live named => ?_, by simp⟩
    simp only [takenName] at takes
    split at takes
    · rename_i isName
      obtain ⟨name', text, free⟩ := (of_validateFieldEdited valid).2 isName
      rw [takes] at text
      cases text
      exact turn.included_of_free own (free used) stored live named
    · contradiction
  | nodeDeleted => exact ⟨by simp [takenName], by simp⟩
  | richTextPatched => exact ⟨by simp [takenName], by simp⟩
  | _ => contradiction

omit turn in
theorem PartOf.step {t' : DocumentState} (partOf : PartOf team s t included)
    (selected : id ∈ included) (full : s.Changes s' id e) (part : t.Changes t' id e) :
    PartOf team s' t' included where
  inside := by
    intro other mem
    by_cases same : other = id
    · rw [same, full.1, part.1]
    · rw [full.2 other same, part.2 other same, partOf.inside other mem]
  outside := by
    intro other out
    have different : other ≠ id := fun same => out (same ▸ selected)
    rw [part.2 other different, partOf.outside other out]

omit turn in
theorem PartOf.skip (partOf : PartOf team s t included)
    (out : id ∉ included) (full : s.Changes s' id e) : PartOf team s' t included where
  inside := by
    intro other mem
    have different : other ≠ id := fun same => out (same ▸ mem)
    rw [full.2 other different, partOf.inside other mem]
  outside := partOf.outside

omit turn in
theorem applyAll_cons {next : DocumentState} {more : List EventPayload}
    (applied : applyPayload env s op = .ok next) :
    applyAll env s (op :: more) = applyAll env next more := by
  rw [applyAll, foldlM_cons, applied]
  rfl

/-- The operations on included nodes fit when their turn comes, from a state on. -/
def FitInTurn (env : Externals) (included : ExtTreeSet NodeId) (team s : DocumentState)
    (rest : List EventPayload) : Prop :=
  ∀ (between later : List EventPayload) (op : EventPayload) (s' : DocumentState) (target : NodeId),
    rest = between ++ op :: later → applyAll env s between = .ok s' →
    op.targetNodeId = some target → target ∈ included → Fits (· ∈ included) team s' op

omit turn in
theorem fitInTurn_cons {rest : List EventPayload} {next : DocumentState}
    (own : op.targetNodeId = some target) (applied : applyPayload env s op = .ok next) :
    FitInTurn env included team s (op :: rest) ↔
      (target ∈ included → Fits (· ∈ included) team s op) ∧
        FitInTurn env included team next rest := by
  constructor
  · refine fun all => ⟨fun selected => all [] rest op s target rfl rfl own selected, ?_⟩
    intro between more other s' target' same reached
    exact all (op :: between) more other s' target' (by rw [same]; rfl)
      ((applyAll_cons applied).trans reached)
  · rintro ⟨first, all⟩ between more other s' target' same reached own' selected
    cases between with
    | nil =>
      cases same
      cases reached
      rw [own] at own'
      cases own'
      exact first selected
    | cons _ between =>
      cases same
      rw [applyAll_cons applied] at reached
      exact all between more other s' target' rfl reached own' selected

omit turn in
theorem AtTurn.run_iff {rest : List EventPayload} {final : DocumentState}
    (turn : AtTurn ops done included team s t) (split : ops = done ++ rest)
    (checked : applyChecked env decode s rest = some final) :
    (∃ final', applyChecked env decode t (chosen rest included) = some final') ↔
      FitInTurn env included team s rest := by
  induction rest generalizing done s t with
  | nil => exact ⟨fun _ between later op s' target split => by simp at split, fun _ => ⟨t, rfl⟩⟩
  | cons op rest ih =>
    obtain ⟨next, valid, applied, checked⟩ := of_applyChecked_cons checked
    have mem : op ∈ ops := by
      rw [split]
      simp
    have isLocal := turn.isLocal op mem
    obtain ⟨changed, target, own⟩ := changedNode_of_isLocal isLocal
    obtain ⟨e, entry, changes⟩ := entry_of_applyPayload (changed.trans own) applied
    have split' : ops = (done ++ [op]) ++ rest := by
      rw [split, append_assoc]
      rfl
    have within : ∀ other ∈ done ++ [op], other ∈ ops := fun other inDone => by
      rw [split']
      exact mem_append_left _ inDone
    have since := turn.since.step isLocal valid applied
    rw [fitInTurn_cons own applied]
    by_cases selected : target ∈ included
    · have here : chosen (op :: rest) included = op :: chosen rest included := by
        simp [chosen, own, selected]
      have entry' : (t.entry target).apply env op = .ok e := by
        rw [turn.partOf.inside target selected, entry]
      obtain ⟨next', applied', changes'⟩ := applyPayload_changes (changed.trans own) entry'
      have later := ih
        { turn with within, since, partOf := turn.partOf.step selected changes changes' }
        split' checked
      rw [here, ← later]
      constructor
      · rintro ⟨final', run⟩
        obtain ⟨next'', passes, applied'', run⟩ := of_applyChecked_cons run
        rw [applied'] at applied''
        cases applied''
        exact ⟨fun _ => turn.fits mem own selected passes, final', run⟩
      · rintro ⟨fits, final', run⟩
        have passes := turn.valid mem own selected (fits selected) valid
        refine ⟨final', ?_⟩
        rw [applyChecked, if_pos passes, applied']
        exact run
    · have here : chosen (op :: rest) included = chosen rest included := by
        simp [chosen, own, selected]
      rw [here, ih { turn with within, since, partOf := turn.partOf.skip selected changes } split'
        checked]
      exact (and_iff_right fun mem => absurd mem selected).symm

end PartialRun

def block (id : NodeId) (parentId : Option NodeId) (nodeType : String) (varName : Option String) :
    MaterializedNode :=
  ⟨id, parentId, nodeType, "a0", .fields [], varName, false⟩

def flat : DocumentState :=
  .ofNodes [block "f" none "form" none, block "s" (some "f") "section" none,
    block "t" (some "f") "section" none, block "i" (some "f") "item" none]

def nested : DocumentState :=
  .ofNodes [block "f" none "form" none, block "t" (some "f") "section" none,
    block "s" (some "t") "section" none, block "i" (some "s") "item" none]

def nestingOps : List EventPayload :=
  [.nodeMoved "s" (some "t") "a0", .nodeMoved "i" (some "s") "a0"]

/-- The item asks for nothing, since its new parent is live from the start. -/
theorem needed_nestingOps : Needed nestingOps flat (ofList ["i"]) = (· = "i") := by
  funext id
  refine propext ⟨fun isNeeded => ?_, fun same => .selected (by simp [same])⟩
  induction isNeeded with
  | selected mem =>
    rw [ExtTreeSet.mem_ofList] at mem
    simpa using mem
  | need _ mem own asks _ _ ih =>
    subst ih
    simp only [nestingOps, mem_cons, not_mem_nil, or_false] at mem
    rcases mem with rfl | rfl
    · simp [EventPayload.targetNodeId] at own
    · have none : needs flat (.nodeMoved "i" (some "s") "a0") = [] := by decide +kernel
      simp [none] at asks

theorem section_not_below_item (s : DocumentState) :
    ¬ Relation.TransGen (Mixed (· = "i") flat s) "s" "i" := by
  have inForm : flat.parentOf "s" = some "f" := by decide +kernel
  have top : flat.parentOf "f" = none := by decide +kernel
  have above (x : NodeId) (below : Relation.TransGen (Mixed (· = "i") flat s) "s" x) : x = "f" := by
    induction below with
    | single step => simpa [Mixed, inForm, eq_comm] using step
    | tail _ step ih => simp [ih, Mixed, top] at step
  exact fun below => absurd (above "i" below) (by decide)

/-- All operations of a difference are valid in order, but the one operation that is left of
them for a selected node is not. -/
def RefusedSelection (team target : DocumentState) (selected : NodeId) (op : EventPayload)
    (e : OpError) : Prop :=
  ∃ ops included, Diff.diff plainExternals 16 team target = .ok (.ok ops) ∧
    (applyChecked plainExternals (fun _ => .error "") team ops).isSome ∧
    withDependencies ops team 16 (ofList [selected]) = .ok included ∧
    chosen ops included = [op] ∧ validateOp plainExternals (fun _ => .error "") team op = .error e

end Dynodoc
