import Dynodoc.Document.State
import Dynodoc.Lib.Loop

/-! Replay node by node. An operation on a node changes that node's entry only, so a
list of operations can be replayed for every node apart from the others. -/
namespace Dynodoc
open Std (ExtTreeMap ExtTreeSet)
open RichText DocumentState List Loop

structure Entry where
  node : Option MaterializedNode
  removed : Bool
  deriving DecidableEq

variable {ops : List EventPayload} {op : EventPayload} {key id : NodeId} {s : DocumentState}
  {e : Entry} {f : MaterializedNode → Except ApplyError MaterializedNode}

def DocumentState.entry (s : DocumentState) (id : NodeId) : Entry :=
  ⟨s.nodes[id]?, decide (id ∈ s.removedChoices)⟩

def EventPayload.changedNode : EventPayload → Option NodeId
  | nodeCreated id .. | nodeMoved id .. | nodeDeleted id | nodeRestored id | fieldEdited id ..
  | richTextPatched id _ | choiceAdded _ id _ | choiceRemoved _ id => some id
  | _ => none

/-- The operations of a difference: each one is about the node that it changes. -/
def EventPayload.isLocal : EventPayload → Bool
  | nodeCreated .. | nodeMoved .. | nodeDeleted _ | nodeRestored _ | fieldEdited ..
  | richTextPatched .. => true
  | _ => false

def Entry.update (e : Entry) (key : NodeId)
    (f : MaterializedNode → Except ApplyError MaterializedNode) : Except ApplyError Entry :=
  match e.node with
  | none => .error (.missingNode key)
  | some n => (f n).map fun n => { e with node := some n }

def Entry.apply (env : Externals) (e : Entry) : EventPayload → Except ApplyError Entry
  | .richTextPatched id patch => e.update id fun n => patchNode env patch n id
  | .nodeCreated id nodeType parentId pos fields varName =>
    .ok { e with
      node := some ⟨id, parentId, nodeType.asStr, pos, objectOrValue fields, varName, false⟩ }
  | .fieldEdited id field value => e.update id fun n => editNode field value n id
  | .nodeMoved id parentId pos =>
    e.update id fun n => .ok { n with parentId := parentId, pos := pos }
  | .nodeRestored id =>
    (e.update id fun n => .ok { n with deleted := false }).map fun e => { e with removed := false }
  | .nodeDeleted id => e.update id fun n => .ok { n with deleted := true }
  | .choiceAdded id choiceId fields =>
    .ok ⟨e.node.or (some ⟨choiceId, some id, "choice", choiceId, objectOrValue fields, none, false⟩),
      false⟩
  | .choiceRemoved .. => .ok { e with removed := true }
  | _ => .ok e

variable {env : Externals}

/-- The same state outside of one entry. -/
def DocumentState.Changes (s s' : DocumentState) (id : NodeId) (e : Entry) : Prop :=
  s'.entry id = e ∧ ∀ other, other ≠ id → s'.entry other = s.entry other

theorem changes_nodes (s : DocumentState) (id : NodeId) (n : MaterializedNode) :
    s.Changes { s with nodes := s.nodes.insert id n } id { s.entry id with node := some n } := by
  refine ⟨by simp [entry], fun other different => ?_⟩
  simp [entry, different]

variable {e e' : Entry}

open Entry

theorem Entry.update_eq_ok (updated : e.update key f = .ok e') :
    ∃ n m, e.node = some n ∧ f n = .ok m ∧ e' = { e with node := some m } := by
  simp only [update] at updated
  split at updated
  · contradiction
  rename_i n stored
  obtain ⟨m, edited, rfl⟩ := map_eq_ok.1 updated
  exact ⟨n, m, stored, edited, rfl⟩

theorem updateNode_changes (updated : (s.entry id).update id f = .ok e) :
    ∃ s', s.updateNode id f = .ok s' ∧ s.Changes s' id e := by
  obtain ⟨n, m, stored, edited, rfl⟩ := update_eq_ok updated
  have found : s.nodes[id]? = some n := stored
  exact ⟨_, by simp [updateNode, found, edited, Except.map], changes_nodes s id m⟩

theorem applyPayload_changes
    (target : op.changedNode = some id) (applied : (s.entry id).apply env op = .ok e) :
    ∃ s', applyPayload env s op = .ok s' ∧ s.Changes s' id e := by
  cases op with
  | nodeCreated =>
    cases target
    cases applied
    exact ⟨_, rfl, changes_nodes _ _ _⟩
  | nodeMoved => cases target; exact updateNode_changes applied
  | nodeDeleted => cases target; exact updateNode_changes applied
  | fieldEdited => cases target; exact updateNode_changes applied
  | richTextPatched => cases target; exact updateNode_changes applied
  | nodeRestored key =>
    cases target
    obtain ⟨e', updated, rfl⟩ := map_eq_ok.1 applied
    obtain ⟨s', restored, here, elsewhere⟩ := updateNode_changes updated
    refine ⟨{ s' with removedChoices := s'.removedChoices.erase id }, ?_, ?_, ?_⟩
    · simp [applyPayload, restored, Bind.bind, Except.bind]
    · simp [← here, entry]
    · intro other different
      rw [← elsewhere other different]
      simp [entry, different.symm]
  | choiceAdded =>
    cases target
    cases applied
    refine ⟨_, rfl, ?_, fun other different => ?_⟩
    · simp only [entry, OrderedMap.getElem?_insertIfNew]
      cases s.nodes[id]? <;> simp
    · simp only [entry, OrderedMap.getElem?_insertIfNew, if_neg different]
      simp [different.symm]
  | choiceRemoved =>
    cases target
    cases applied
    refine ⟨_, rfl, ?_, fun other different => ?_⟩
    · simp [entry]
    · simp [entry, different.symm]
  | _ => simp [EventPayload.changedNode] at target

theorem applyAll_entries (targets : ∀ op ∈ ops, op.changedNode ≠ none) {final : NodeId → Entry}
    (apart : ∀ id, (ops.filter fun op => op.changedNode = some id).foldlM (apply env)
      (s.entry id) = .ok (final id)) :
    ∃ s', applyAll env s ops = .ok s' ∧ ∀ id, s'.entry id = final id := by
  induction ops generalizing s with
  | nil => exact ⟨s, rfl, fun id => Except.ok.inj (apart id)⟩
  | cons op ops ih =>
    obtain ⟨target, changed⟩ := Option.ne_none_iff_exists'.1 (targets op (by simp))
    have here := apart target
    simp only [filter_cons, changed, decide_true, if_true, foldlM_cons] at here
    obtain ⟨e, applied, here⟩ := bind_eq_ok.1 here
    obtain ⟨s₁, stepped, entered, elsewhere⟩ := applyPayload_changes changed applied
    obtain ⟨s', replayed, ends⟩ := @ih s₁ (fun op mem => targets op (by simp [mem])) fun id => by
      by_cases same : id = target
      · subst same
        rw [entered]
        exact here
      · rw [elsewhere id same]
        have skipped := apart id
        rw [filter_cons, if_neg (by simp [changed, Ne.symm same])] at skipped
        exact skipped
    refine ⟨s', ?_, ends⟩
    simp only [applyAll, foldlM_cons, stepped]
    exact replayed

theorem Entry.update_of_some {n m : MaterializedNode} (stored : e.node = some n)
    (updated : f n = .ok m) : e.update key f = .ok { e with node := some m } := by
  simp [update, stored, updated, Except.map]

section Applied

variable {s' : DocumentState}

theorem updateNode_entry (updated : s.updateNode id f = .ok s') :
    ∃ e, (s.entry id).update id f = .ok e := by
  simp only [updateNode] at updated
  split at updated
  · contradiction
  rename_i n stored
  obtain ⟨m, edited, -⟩ := map_eq_ok.1 updated
  exact ⟨_, update_of_some stored edited⟩

/-- What an operation does to the entry of its node is all that it does. -/
theorem entry_of_applyPayload (target : op.changedNode = some id)
    (applied : applyPayload env s op = .ok s') :
    ∃ e, (s.entry id).apply env op = .ok e ∧ s.Changes s' id e := by
  have here : ∃ e, (s.entry id).apply env op = .ok e := by
    cases op with
    | nodeMoved => cases target; exact updateNode_entry applied
    | nodeDeleted => cases target; exact updateNode_entry applied
    | fieldEdited => cases target; exact updateNode_entry applied
    | richTextPatched => cases target; exact updateNode_entry applied
    | nodeRestored =>
      cases target
      obtain ⟨middle, restored, -⟩ := bind_eq_ok.1 applied
      obtain ⟨e, updated⟩ := updateNode_entry restored
      exact ⟨_, map_eq_ok.2 ⟨e, updated, rfl⟩⟩
    | _ => exact ⟨_, rfl⟩
  obtain ⟨e, here⟩ := here
  obtain ⟨s'', again, changes⟩ := applyPayload_changes target here
  rw [applied] at again
  cases again
  exact ⟨e, here, changes⟩

/-- What a replay does to a node is what the operations on that node do to it. -/
theorem entries_of_applyAll (targets : ∀ op ∈ ops, op.changedNode ≠ none)
    (replayed : applyAll env s ops = .ok s') (id : NodeId) :
    (ops.filter fun op => op.changedNode = some id).foldlM (apply env) (s.entry id) =
      .ok (s'.entry id) := by
  induction ops generalizing s with
  | nil =>
    cases replayed
    rfl
  | cons op ops ih =>
    obtain ⟨target, changed⟩ := Option.ne_none_iff_exists'.1 (targets op (by simp))
    obtain ⟨s₁, stepped, replayed⟩ := bind_eq_ok.1 replayed
    obtain ⟨e, here, entered, elsewhere⟩ := entry_of_applyPayload changed stepped
    have later := ih (fun op mem => targets op (by simp [mem])) replayed
    by_cases same : id = target
    · subst same
      simp only [filter_cons, changed, decide_true, if_true, foldlM_cons, here, ← entered]
      exact later
    · rw [filter_cons, if_neg (by simp [changed, Ne.symm same]), ← elsewhere id same]
      exact later

end Applied

/-- Replay depends on the order of the operations on each node, not on how those on different
nodes are interleaved. -/
theorem interleaving_is_irrelevant (env : Externals) (s final : DocumentState)
    (ops ops' : List EventPayload) (targets : ∀ op ∈ ops ++ ops', op.changedNode ≠ none)
    (same : ∀ id, (ops.filter fun op => op.changedNode = some id) =
      ops'.filter fun op => op.changedNode = some id)
    (replayed : applyAll env s ops = .ok final) :
    ∃ final', applyAll env s ops' = .ok final' ∧ ∀ id, final'.entry id = final.entry id := by
  apply applyAll_entries (fun op mem => targets op (mem_append_right _ mem))
  intro id
  rw [← same]
  exact entries_of_applyAll (fun op mem => targets op (mem_append_left _ mem)) replayed id

def newForm (id : NodeId) : EventPayload := .nodeCreated id .form none "a0" .null none

theorem new_forms_interleave : ∃ final, applyAll plainExternals (.ofNodes [])
    [newForm "q", newForm "p", .nodeDeleted "p"] = .ok final ∧
      (final.entry "p").node.any (·.deleted) := by
  obtain ⟨final, replayed, entries⟩ := interleaving_is_irrelevant plainExternals (.ofNodes []) _
    [newForm "p", .nodeDeleted "p", newForm "q"] [newForm "q", newForm "p", .nodeDeleted "p"]
    (by decide) (fun id => by simp [filter_cons, newForm, EventPayload.changedNode]; grind) rfl
  exact ⟨final, replayed, by rw [entries]; decide +kernel⟩

def Entry.bare (e : Entry) : Entry :=
  { e with node := e.node.map fun n => { n with currentFields := .null } }

/-- What an operation does to an entry apart from the fields. -/
def Entry.step (e : Entry) : EventPayload → Entry
  | .nodeCreated id nodeType parentId pos _ varName =>
    { e with node := some ⟨id, parentId, nodeType.asStr, pos, .null, varName, false⟩ }
  | .fieldEdited _ field value =>
    if field = "var_name" ∨ field = "varName" then
      { e with node := e.node.map fun n => { n with varName := value.asStr } }
    else e
  | .nodeMoved _ parentId pos =>
    { e with node := e.node.map fun n => { n with parentId := parentId, pos := pos } }
  | .nodeRestored _ => ⟨e.node.map fun n => { n with deleted := false }, false⟩
  | .nodeDeleted _ => { e with node := e.node.map fun n => { n with deleted := true } }
  | .choiceAdded id choiceId _ =>
    ⟨e.node.or (some ⟨choiceId, some id, "choice", choiceId, .null, none, false⟩), false⟩
  | .choiceRemoved .. => { e with removed := true }
  | _ => e

theorem apply_bare (applied : e.apply env op = .ok e') :
    e'.bare = e.bare.step op := by
  cases op with
  | richTextPatched id patch =>
    obtain ⟨n, m, stored, patched, rfl⟩ := update_eq_ok applied
    simp only [patchNode] at patched
    repeat' split at patched
    all_goals cases patched
    simp [bare, step, stored]
  | fieldEdited id field value =>
    obtain ⟨n, m, stored, edited, rfl⟩ := update_eq_ok applied
    simp only [editNode] at edited
    split at edited
    · contradiction
    cases edited
    by_cases mirror : field = "var_name" ∨ field = "varName"
    · simp [bare, step, stored, mirror]
    · simp [bare, step, stored, mirror]
  | nodeMoved id parentId pos =>
    obtain ⟨n, m, stored, moved, rfl⟩ := update_eq_ok applied
    cases moved
    simp [bare, step, stored]
  | nodeDeleted id =>
    obtain ⟨n, m, stored, deleted, rfl⟩ := update_eq_ok applied
    cases deleted
    simp [bare, step, stored]
  | nodeRestored id =>
    obtain ⟨_, updated, rfl⟩ := map_eq_ok.1 applied
    obtain ⟨n, m, stored, restored, rfl⟩ := update_eq_ok updated
    cases restored
    simp [bare, step, stored]
  | choiceAdded id choiceId fields =>
    cases applied
    cases stored : e.node <;> simp [bare, step, stored]
  | _ =>
    cases applied
    simp [bare, step]

theorem foldlM_apply_bare
    (applied : ops.foldlM (apply env) e = .ok e') : e'.bare = ops.foldl step e.bare := by
  induction ops generalizing e with
  | nil =>
    cases applied
    rfl
  | cons op ops ih =>
    rw [foldlM_cons] at applied
    obtain ⟨e₁, first, applied⟩ := bind_eq_ok.1 applied
    rw [ih applied, apply_bare first, foldl_cons]

end Dynodoc
