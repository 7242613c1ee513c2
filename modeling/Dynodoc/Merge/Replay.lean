import Dynodoc.Merge.Defects
import Dynodoc.Merge.Revise

/-! The operations of a difference, replayed on the source, give the live nodes of the
target. -/
namespace Dynodoc.Diff
open Std (ExtTreeMap ExtTreeSet)
open Loop DocumentState Entry Option List Waiting

variable {held : ExtTreeMap String NodeId} {m n : MaterializedNode} {waiting : Option Waiting}
  {s : DocumentState} {env : Externals} {removed : Bool} {id : NodeId} {e : Entry}

/-- A node after the replay: as the target has it, up to the mirrors of the name. -/
structure Matches (before : Option MaterializedNode) (n m : MaterializedNode) : Prop where
  parentId : m.parentId = n.parentId
  pos : m.pos = n.pos
  nodeType : m.nodeType = n.nodeType
  varName : m.varName.getD "" = n.varName.getD ""
  fields : ∀ key, key ≠ "var_name" → key ≠ "varName" →
    (∃ p, before = some p ∧ key ∈ p.currentFields.keys) ∨ key ∈ n.currentFields.keys →
    m.currentFields.index key = n.currentFields.index key

/-- The state that a replay reaches has the live nodes of the target. -/
structure Replayed (source target result : DocumentState) : Prop where
  live : ∀ id, (∃ m, result.LiveAt id m) ↔ ∃ n, target.LiveAt id n
  same : ∀ id n m, target.LiveAt id n → result.LiveAt id m → Matches source.nodes[id]? n m

theorem eq_of_bare {b : MaterializedNode} (stored : e.node = some m)
    (same : e.bare = ⟨some b, removed⟩) :
    { m with currentFields := .null } = b ∧ e.removed = removed := by
  simp only [Entry.bare, stored, map_some, Entry.mk.injEq, some.injEq] at same
  exact same

variable {p : MaterializedNode}

theorem eq_of_canonical
    (stored : s.nodes[id]? = some m) (known : s.canonical.nodes[id]? = some p) :
    p = { m with deleted := m.deleted || decide (id ∈ s.removedChoices) } := by
  rw [getElem?_canonical, stored, map_some, some.injEq] at known
  rw [← known]
  split
  · rename_i gone
    simp [gone]
  · rename_i kept
    simp [kept]

theorem joins_of_canonical (stored : s.nodes[id]? = some m)
    (known : s.canonical.nodes[id]? = some p) :
    Joins p { m with currentFields := .null } (decide (id ∈ s.removedChoices)) ∧
      s.canonical.removedChoices.contains id = decide (id ∈ s.removedChoices) := by
  rw [eq_of_canonical stored known]
  refine ⟨⟨rfl, rfl, rfl, rfl⟩, ?_⟩
  rw [Bool.eq_iff_iff]
  simp [DocumentState.canonical]

theorem bare_of_stored (stored : s.nodes[id]? = some m) : (s.entry id).bare =
      ⟨some { m with currentFields := .null }, decide (id ∈ s.removedChoices)⟩ := by
  simp [bare, entry, stored]

theorem waiting_edit (waits : ∀ w ∈ waiting, nameLater held n = some w) :
    (waiting.map edit).toList.foldl step ⟨some m, removed⟩ =
      ⟨some { m with varName := if waiting.isSome then n.varName else m.varName }, removed⟩ := by
  cases waiting with
  | none => rfl
  | some w =>
    obtain ⟨name, _, named, -, -, rfl⟩ := nameLater_eq_some.1 (waits w rfl)
    simp [step, named]

section Nodes

variable {source : DocumentState}

theorem created_matches (object : n.currentFields.isObject)
    (waits : ∀ w ∈ waiting, nameLater held n = some w) {nodeType : NodeType}
    (parsed : parseNodeType n.nodeType = some nodeType) (kept : e.removed = false) :
    ∃ e' m, (phased source (.nodeCreated n.id nodeType n.parentId n.pos
        (createdFields n waiting.isSome) (if waiting.isSome then none else n.varName) ::
          (waiting.map edit).toList)).foldlM (apply env) e = .ok e' ∧
      e'.node = some m ∧ m.deleted = false ∧ e'.removed = false ∧ Matches none n m := by
  obtain ⟨e', m, run, stored, fields⟩ := @created_fields env source held n waiting object waits
    nodeType (if waiting.isSome then none else n.varName) e
  have shell := foldlM_apply_bare run
  rw [foldl_step_phased, foldl_cons, step, waiting_edit waits] at shell
  obtain ⟨same, removed⟩ := eq_of_bare stored shell
  simp only [MaterializedNode.mk.injEq] at same
  obtain ⟨-, parent, type, pos, -, name, alive⟩ := same
  refine ⟨e', m, run, stored, alive, removed.trans kept, parent, pos, ?_, ?_, ?_⟩
  · rw [type, asStr_of_parseNodeType parsed]
  · rw [name]
    cases waiting <;> rfl
  · exact fun key notName notMirror _ => fields key notName notMirror

theorem updated_matches (stored : source.nodes[n.id]? = some m)
    (known : source.canonical.nodes[n.id]? = some p) (object : m.currentFields.isObject)
    (sameType : p.nodeType = n.nodeType) (waits : ∀ w ∈ waiting, nameLater held n = some w) :
    ∃ e' m', (phased source.canonical (updates env source.canonical waiting p n ++
        (waiting.map edit).toList)).foldlM (apply env) (source.entry n.id) = .ok e' ∧
      e'.node = some m' ∧ m'.deleted = false ∧ e'.removed = false ∧ Matches (some m) n m' := by
  have canonical := eq_of_canonical stored known
  have fields : m.currentFields = p.currentFields := by rw [canonical]
  obtain ⟨e', m', run, stored', reads⟩ := @updates_fields env source.canonical held p n m waiting known
    (source.entry n.id) stored fields (fields ▸ object) waits
  obtain ⟨joins, listed⟩ := joins_of_canonical stored known
  obtain ⟨name, shell, pending⟩ := @foldl_step_updates env _ _ _ _ _ joins listed waiting
  have final := foldlM_apply_bare run
  rw [foldl_step_phased, bare_of_stored stored, foldl_append, shell, waiting_edit waits] at final
  obtain ⟨same, removed⟩ := eq_of_bare stored' final
  simp only [MaterializedNode.mk.injEq] at same
  obtain ⟨-, parent, type, pos, -, named, alive⟩ := same
  refine ⟨e', m', run, stored', alive, removed, parent, pos, ?_, ?_, ?_⟩
  · rw [type, ← sameType, canonical]
  · rw [named]
    cases waiting with
    | none => exact pending
    | some w => rfl
  · intro key notName notMirror either
    refine reads key notName notMirror (either.imp_left ?_)
    rintro ⟨_, ⟨⟩, mem⟩
    exact fields ▸ mem

end Nodes

section Replays

variable {fuel : Nat} {source target : DocumentState} {ops : List EventPayload}

theorem Stages.targets (stages : Stages env fuel source target ops) {op : EventPayload}
    (mem : op ∈ ops) : op.changedNode ≠ none := by
  rw [stages.result] at mem
  obtain ⟨before, inOps, same⟩ := exists_of_mem_phased _ mem
  rw [same]
  rw [mem_append, mem_append] at inOps
  rcases inOps with (mem | mem) | mem
  · obtain ⟨⟨part, waiting⟩, inParts, inPart⟩ := mem_flatMap.1 mem
    obtain ⟨n, -, taken⟩ := exists_left_of_mem stages.taken inParts
    simp [(nodeOps_target taken inPart).2]
  · obtain ⟨n, -, rfl⟩ := mem_map.1 mem
    simp [EventPayload.changedNode]
  · obtain ⟨w, waits, rfl⟩ := mem_map.1 ((laterOps_perm stages.released).mem_iff.1 mem)
    simp [stages.later_target waits]

structure EntryMatches (source target : DocumentState) (id : NodeId) (e : Entry) : Prop where
  live : ∀ n, target.LiveAt id n → ∃ m, e.node = some m ∧ m.deleted = false ∧ e.removed = false ∧
    Matches source.nodes[id]? n m
  dead : (∀ n, ¬ target.LiveAt id n) → ∀ m, e.node = some m → m.deleted = true ∨ e.removed = true

theorem deleted_of_not_live {doc : DocumentState} {id : NodeId} (dead : ¬ ∃ n, doc.LiveAt id n) :
    doc.canonical.nodes[id]?.all fun m => m.deleted := by
  cases stored : doc.canonical.nodes[id]? with
  | none => rfl
  | some n =>
    by_contra notDeleted
    exact dead ⟨n, liveAt_iff.2 ⟨stored, by simpa using notDeleted⟩⟩

section Staged

variable (stages : Stages env fuel source target ops)
  (keyedSource : Keyed source.nodes) (keyedTarget : Keyed target.nodes)
  (objectsSource : ObjectFields source) (objectsTarget : ObjectFields target)
  (placed : ∀ id n, target.LiveAt id n → id ∉ source.nodes → id ∉ source.removedChoices)
include stages keyedSource keyedTarget objectsSource objectsTarget placed

theorem Stages.entry_matches (id : NodeId) :
    ∃ e, (ops.filter fun op => op.changedNode = some id).foldlM (apply env)
      (source.entry id) = .ok e ∧ EntryMatches source target id e := by
  by_cases alive : ∃ n, target.LiveAt id n
  · obtain ⟨n, live⟩ := alive
    obtain ⟨stored, notDeleted⟩ := liveAt_iff.1 live
    have own : n.id = id := keyedTarget.canonical id n stored
    subst own
    obtain ⟨part, waiting, taken, local_⟩ :=
      stages.ops_of_live keyedSource keyedTarget stored notDeleted
    have waits := nodeOps_waiting taken
    rw [local_]
    have found : ∃ e m, (phased source.canonical (part ++ (waiting.map edit).toList)).foldlM
        (apply env) (source.entry n.id) = .ok e ∧ e.node = some m ∧ m.deleted = false ∧
        e.removed = false ∧ Matches source.nodes[n.id]? n m := by
      rcases nodeOps_cases taken with ⟨absent, -, nodeType, parsed, rfl⟩ |
        ⟨p, known, sameType, -, rfl⟩
      · have missing : source.nodes[n.id]? = none := by
          simpa [canonical] using absent
        rw [missing]
        refine created_matches (objectsTarget n.id n live.1) waits parsed ?_
        have kept := placed n.id n live (OrderedMap.getElem?_eq_none_iff.1 missing)
        simp [entry, kept]
      · rw [getElem?_canonical] at known
        obtain ⟨m, stored', -⟩ := map_eq_some_iff.1 known
        rw [← getElem?_canonical] at known
        rw [stored']
        exact updated_matches stored' known (objectsSource n.id m stored') sameType waits
    obtain ⟨e, m, run, here, alive, kept, same⟩ := found
    refine ⟨e, run, fun n' live' => ?_, fun none => absurd live (none n)⟩
    obtain rfl : n = n' := some.inj (live.1.symm.trans live'.1)
    exact ⟨m, here, alive, kept, same⟩
  · have gone := deleted_of_not_live alive
    by_cases here : ∃ n, source.LiveAt id n
    · obtain ⟨n, live⟩ := here
      obtain ⟨stored, notDeleted⟩ := liveAt_iff.1 live
      have own : n.id = id := keyedSource.canonical id n stored
      subst own
      rw [stages.ops_of_removed keyedSource keyedTarget stored notDeleted gone]
      refine ⟨{ source.entry n.id with node := some { n with deleted := true } }, ?_,
        fun n' live' => absurd ⟨n', live'⟩ alive, fun _ m here => ?_⟩
      · have held : (source.entry n.id).node = some n := live.1
        simp [apply, update, held, Except.map]
      · cases here
        exact .inl rfl
    · have goneHere := deleted_of_not_live here
      rw [stages.ops_of_dead keyedSource keyedTarget gone goneHere]
      refine ⟨source.entry id, rfl, fun n live => absurd ⟨n, live⟩ alive, fun _ m stored => ?_⟩
      by_contra notDead
      rw [not_or] at notDead
      refine here ⟨m, stored, by simpa using notDead.1, ?_⟩
      simpa [entry] using notDead.2

theorem Stages.applies : ∃ result, applyAll env source ops = .ok result ∧
      ∀ id, EntryMatches source target id (result.entry id) := by
  choose final apart matching using stages.entry_matches keyedSource keyedTarget objectsSource
    objectsTarget placed
  obtain ⟨result, replayed, entries⟩ := applyAll_entries (fun op mem => stages.targets mem) apart
  exact ⟨result, replayed, fun id => entries id ▸ matching id⟩

end Staged

/-- A difference can be replayed, and leads to the live nodes of the target. -/
theorem diff_replays (env : Externals) (fuel : Nat) (source target : DocumentState)
    (keyedSource : Keyed source.nodes) (keyedTarget : Keyed target.nodes)
    (objectsSource : ObjectFields source) (objectsTarget : ObjectFields target)
    (placed : ∀ id n, target.LiveAt id n → id ∉ source.nodes → id ∉ source.removedChoices)
    (ops : List EventPayload) (planned : diff env fuel source target = .ok (.ok ops)) :
    ∃ result, applyAll env source ops = .ok result ∧ Replayed source target result := by
  obtain ⟨stages⟩ := diff_stages planned
  obtain ⟨result, replayed, matching⟩ := stages.applies keyedSource keyedTarget objectsSource
    objectsTarget placed
  have read : ∀ id m, result.LiveAt id m ↔
      (result.entry id).node = some m ∧ m.deleted = false ∧ (result.entry id).removed = false := by
    simp [DocumentState.LiveAt, entry]
  refine ⟨result, replayed, fun id => ⟨?_, ?_⟩, fun id n m live here => ?_⟩
  · rintro ⟨m, live⟩
    obtain ⟨stored, alive, kept⟩ := (read id m).1 live
    by_contra none
    rcases (matching id).dead (fun n live => none ⟨n, live⟩) m stored with dead | dead
    · simp [alive] at dead
    · simp [kept] at dead
  · rintro ⟨n, live⟩
    obtain ⟨m, stored, alive, kept, -⟩ := (matching id).live n live
    exact ⟨m, (read id m).2 ⟨stored, alive, kept⟩⟩
  · obtain ⟨m', stored, -, -, same⟩ := (matching id).live n live
    obtain ⟨stored', -⟩ := (read id m).1 here
    rw [stored] at stored'
    cases stored'
    exact same

end Replays

def form (id : NodeId) (varName : Option String) : MaterializedNode :=
  ⟨id, none, "form", "a0", .fields [], varName, false⟩

/-- Two forms exchange a name with a third one that is new. -/
theorem handed_over_names_replay : ∃ ops result,
    diff plainExternals 8 (.ofNodes [form "p" (some "a"), form "q" (some "b")])
      (.ofNodes [form "p" (some "b"), form "q" none, form "r" (some "a")]) = .ok (.ok ops) ∧
    applyAll plainExternals (.ofNodes [form "p" (some "a"), form "q" (some "b")]) ops = .ok result ∧
    Replayed (.ofNodes [form "p" (some "a"), form "q" (some "b")])
      (.ofNodes [form "p" (some "b"), form "q" none, form "r" (some "a")]) result := by
  have run : ((diff plainExternals 8 (.ofNodes [form "p" (some "a"), form "q" (some "b")])
      (.ofNodes [form "p" (some "b"), form "q" none, form "r" (some "a")])).toOption.bind
        Except.toOption).isSome := by decide +kernel
  obtain ⟨ops, found⟩ := isSome_iff_exists.1 run
  obtain ⟨planned, ran, succeeded⟩ := bind_eq_some_iff.1 found
  have ok : planned = .ok ops := by cases planned <;> simp_all [Except.toOption]
  rw [toOption_eq_some, ok] at ran
  have objects : ∀ l : List MaterializedNode, l.all (fun n => n.currentFields.isObject) →
      ObjectFields (.ofNodes l) := fun l all => objectFields_ofNodes (by simpa using all)
  obtain ⟨result, replayed, same⟩ := diff_replays plainExternals 8 _ _
    (keyed_ofNodes _) (keyed_ofNodes _) (objects _ (by decide +kernel))
    (objects _ (by decide +kernel)) (by simp [ofNodes]) ops ran
  exact ⟨ops, result, ran, replayed, same⟩

/-- A form under a key that is not its id. -/
def aliasedForm : DocumentState :=
  { ofNodes [] with nodes := (ofNodes []).nodes.insert "x" (form "y" none) }

/-- A removed choice without its node. -/
def unknownRemoved : DocumentState :=
  { ofNodes [] with
    removedChoices := (ofNodes []).removedChoices.insert "p" }

/-- The replay misses the node under the other key, and leaves the created node hidden. -/
theorem replay_misses_nodes :
    (ObjectFields (.ofNodes []) ∧ ObjectFields aliasedForm ∧ ∃ ops,
      diff plainExternals 8 (.ofNodes []) aliasedForm = .ok (.ok ops) ∧
      ∀ result, applyAll plainExternals (.ofNodes []) ops = .ok result →
        ¬ Replayed (.ofNodes []) aliasedForm result) ∧
    ObjectFields unknownRemoved ∧ ObjectFields (.ofNodes [form "p" none]) ∧
    Keyed unknownRemoved.nodes ∧ ∃ ops,
      diff plainExternals 8 unknownRemoved (.ofNodes [form "p" none]) = .ok (.ok ops) ∧
      ∀ result, applyAll plainExternals unknownRemoved ops = .ok result →
        ¬ Replayed unknownRemoved (.ofNodes [form "p" none]) result := by
  have empty : ObjectFields (.ofNodes []) := objectFields_ofNodes (by simp)
  refine ⟨⟨empty, ?_, [.nodeCreated "y" .form none "a0" (.fields []) none], by decide +kernel, ?_⟩,
    empty, objectFields_ofNodes (by decide +kernel), keyed_ofNodes [],
    [.nodeCreated "p" .form none "a0" (.fields []) none], by decide +kernel, ?_⟩
  · intro id n stored
    simp only [aliasedForm, OrderedMap.getElem?_insert] at stored
    split at stored
    · cases stored
      decide +kernel
    · exact empty id n stored
  · intro result replayed same
    cases replayed
    obtain ⟨m, live⟩ := (same.live "x").2 ⟨form "y" none, by decide +kernel⟩
    have missing := live.1
    simp [ofNodes] at missing
  · intro result replayed same
    cases replayed
    obtain ⟨m, live⟩ := (same.live "p").2 ⟨form "p" none, by decide +kernel⟩
    exact live.2.2 (by decide +kernel)

end Dynodoc.Diff
