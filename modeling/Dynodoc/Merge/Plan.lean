import Dynodoc.Document.Entry
import Dynodoc.Merge.Diff

/-! The operation list of a difference, taken apart: which operations it holds for one
node, and in what order the nodes come. -/
namespace Dynodoc.Diff
open Std (ExtTreeMap ExtTreeSet)
open Loop List EventPayload Prod Std.ExtTreeMap

variable {n : MaterializedNode} {held : ExtTreeMap String NodeId} {ops : List EventPayload}
  {fuel : Nat} {nodes removed : List MaterializedNode} {env : Externals}
  {parts : List (List EventPayload × Option Waiting)} {op : EventPayload}
  {source target : DocumentState} {order : List Nat} {w : Waiting} {id : NodeId}

section Phases

variable (source : DocumentState)

def pieces (op : EventPayload) : Phases := phase source ⟨[], [], []⟩ op

theorem phase_eq (acc : Phases) (op : EventPayload) :
    phase source acc op = ⟨acc.unlocks ++ (pieces source op).unlocks,
      acc.content ++ (pieces source op).content, acc.locks ++ (pieces source op).locks⟩ := by
  cases op with
  | nodeCreated =>
    simp only [pieces, phase]
    split <;> simp
  | fieldEdited =>
    simp only [pieces, phase]
    repeat' split
    all_goals simp
  | _ => simp [pieces, phase]

theorem phased_eq (ops : List EventPayload) :
    phased source ops = ops.flatMap (fun op => (pieces source op).unlocks) ++
      ops.flatMap (fun op => (pieces source op).content) ++
      ops.flatMap (fun op => (pieces source op).locks) := by
  have fold : ∀ acc : Phases, ops.foldl (phase source) acc =
      ⟨acc.unlocks ++ ops.flatMap (fun op => (pieces source op).unlocks),
        acc.content ++ ops.flatMap (fun op => (pieces source op).content),
        acc.locks ++ ops.flatMap (fun op => (pieces source op).locks)⟩ := by
    induction ops with
    | nil => simp
    | cons op ops ih =>
      intro acc
      simp [ih, phase_eq source acc op]
  simp [phased, fold]

/-- An edit of the protection may go to either end, a protected sheet is created without
protection, and everything else stays in the middle. -/
theorem pieces_cases (op : EventPayload) :
    (∃ id v, op = .fieldEdited id "sheet_protected" v ∧
      ((source.nodes[id]?.any (fun n => !n.deleted) ∧ pieces source op = ⟨[op], [], []⟩) ∨
        pieces source op = ⟨[], [], [op]⟩)) ∨
    (∃ id nodeType parentId pos fields varName,
      op = .nodeCreated id nodeType parentId pos fields varName ∧
      fields.index "sheet_protected" = .bool true ∧
      pieces source op = ⟨[], [.nodeCreated id nodeType parentId pos
        ((fields.setIndex "sheet_protected" (.bool false)).getD fields) varName],
        [.fieldEdited id "sheet_protected" (.bool true)]⟩) ∨
    pieces source op = ⟨[], [op], []⟩ := by
  cases op with
  | nodeCreated id nodeType parentId pos fields varName =>
    simp only [pieces, phase]
    split
    · rename_i sheet
      exact .inr (.inl ⟨id, nodeType, parentId, pos, fields, varName, rfl, sheet.2, rfl⟩)
    · exact .inr (.inr rfl)
  | fieldEdited id field value =>
    simp only [pieces, phase]
    split
    · rename_i locks
      rw [locks.1]
      exact .inl ⟨id, value, rfl, .inr rfl⟩
    · split
      · rename_i unlocks
        rw [unlocks.1]
        exact .inl ⟨id, value, rfl, .inl ⟨unlocks.2.2, rfl⟩⟩
      · exact .inr (.inr rfl)
  | _ => exact .inr (.inr rfl)

variable {piece : EventPayload}

theorem changedNode_pieces
    (mem : piece ∈ (pieces source op).unlocks ∨ piece ∈ (pieces source op).content ∨
      piece ∈ (pieces source op).locks) : piece.changedNode = op.changedNode := by
  rcases pieces_cases source op with ⟨id, v, rfl, ⟨-, same⟩ | same⟩ |
    ⟨id, nodeType, parentId, pos, fields, varName, rfl, -, same⟩ | same
  · simp only [same, mem_singleton, not_mem_nil, or_false] at mem
    rw [mem]
  · simp only [same, mem_singleton, not_mem_nil, false_or] at mem
    rw [mem]
  · simp only [same, mem_singleton, not_mem_nil, false_or] at mem
    rcases mem with rfl | rfl <;> rfl
  · simp only [same, mem_singleton, not_mem_nil, false_or, or_false] at mem
    rw [mem]

theorem mem_unlocks
    (mem : piece ∈ ops.flatMap fun op => (pieces source op).unlocks) :
    ∃ id v, piece = .fieldEdited id "sheet_protected" v ∧
      source.nodes[id]?.any fun n => !n.deleted := by
  obtain ⟨op, -, inPieces⟩ := mem_flatMap.1 mem
  rcases pieces_cases source op with ⟨id, v, rfl, ⟨live, same⟩ | same⟩ |
    ⟨_, _, _, _, _, _, -, -, same⟩ | same <;> simp [same] at inPieces
  exact ⟨id, v, inPieces, live⟩

theorem mem_locks
    (mem : piece ∈ ops.flatMap fun op => (pieces source op).locks) :
    ∃ id v, piece = .fieldEdited id "sheet_protected" v ∧
      ((∃ w, .fieldEdited id "sheet_protected" w ∈ ops) ∨
        ∃ nodeType parentId pos fields varName,
          .nodeCreated id nodeType parentId pos fields varName ∈ ops) := by
  obtain ⟨op, inOps, inPieces⟩ := mem_flatMap.1 mem
  rcases pieces_cases source op with ⟨id, v, rfl, ⟨-, same⟩ | same⟩ |
    ⟨id, _, _, _, _, _, rfl, -, same⟩ | same <;> simp [same] at inPieces
  · exact ⟨id, v, inPieces, .inl ⟨v, inOps⟩⟩
  · exact ⟨id, _, inPieces, .inr ⟨_, _, _, _, _, inOps⟩⟩

theorem exists_of_mem_phased
    (mem : op ∈ phased source ops) : ∃ before ∈ ops, op.changedNode = before.changedNode := by
  rw [phased_eq, mem_append, mem_append] at mem
  rcases mem with (mem | mem) | mem
  · obtain ⟨before, inOps, piece⟩ := mem_flatMap.1 mem
    exact ⟨before, inOps, changedNode_pieces source (.inl piece)⟩
  · obtain ⟨before, inOps, piece⟩ := mem_flatMap.1 mem
    exact ⟨before, inOps, changedNode_pieces source (.inr (.inl piece))⟩
  · obtain ⟨before, inOps, piece⟩ := mem_flatMap.1 mem
    exact ⟨before, inOps, changedNode_pieces source (.inr (.inr piece))⟩

theorem filter_flatMap_of_target {f : EventPayload → List EventPayload}
    (same : ∀ op, ∀ piece ∈ f op, piece.changedNode = op.changedNode) (id : NodeId)
    (ops : List EventPayload) :
    (ops.flatMap f).filter (fun op => op.changedNode = some id) =
      (ops.filter fun op => op.changedNode = some id).flatMap f := by
  induction ops with
  | nil => rfl
  | cons op ops ih =>
    rw [flatMap_cons, filter_append, ih, filter_cons]
    split
    · rename_i here
      rw [flatMap_cons, filter_eq_self.2 fun piece mem => by rw [same op piece mem]; exact here]
    · rename_i elsewhere
      rw [filter_eq_nil_iff.2 fun piece mem => by rw [same op piece mem]; exact elsewhere,
        nil_append]

theorem filter_phased (id : NodeId) (ops : List EventPayload) :
    (phased source ops).filter (fun op => op.changedNode = some id) =
      phased source (ops.filter fun op => op.changedNode = some id) := by
  rw [phased_eq, phased_eq, filter_append, filter_append,
    filter_flatMap_of_target (fun op piece mem => changedNode_pieces source (.inl mem)),
    filter_flatMap_of_target (fun op piece mem => changedNode_pieces source (.inr (.inl mem))),
    filter_flatMap_of_target (fun op piece mem => changedNode_pieces source (.inr (.inr mem)))]

end Phases

structure Stages (env : Externals) (fuel : Nat) (source target : DocumentState)
    (ops : List EventPayload) where
  nodes : List MaterializedNode
  parts : List (List EventPayload × Option Waiting)
  removed : List MaterializedNode
  order : List Nat
  ordered : orderedNodes fuel target.canonical = .ok nodes
  taken : List.Forall₂ (fun n part => nodeOps env source.canonical
    (heldNames source.canonical) n = .ok part) nodes parts
  dropped : removedNodes fuel source.canonical target.canonical = .ok removed
  released : releaseOrder fuel (parts.filterMap snd) = .ok order
  result : ops = phased source.canonical (parts.flatMap fst ++
    removed.map (fun n => .nodeDeleted n.id) ++ laterOps (parts.filterMap snd) order)

theorem diff_stages (planned : diff env fuel source target = .ok (.ok ops)) :
    Nonempty (Stages env fuel source target ops) := by
  simp only [diff, bind_eq_ok] at planned
  obtain ⟨nodes, ordered, rest⟩ := planned
  split at rest
  · simp at rest
  rename_i parts mapped
  obtain ⟨removed, dropped, rest⟩ := bind_eq_ok.1 rest
  obtain ⟨order, released, same⟩ := bind_eq_ok.1 rest
  cases same
  exact ⟨⟨nodes, parts, removed, order, ordered, mapM_eq_ok.1 mapped, dropped, released, rfl⟩⟩

section

variable {nodes : ExtTreeMap NodeId MaterializedNode}

theorem pairwise_values (keyed : Keyed nodes) :
    (nodes.toList.map snd).Pairwise fun a b => a.id ≠ b.id := by
  rw [pairwise_map]
  refine distinct_keys_toList.imp_of_mem fun {a b} inA inB distinct same => ?_
  rw [mem_toList_iff_getElem?_eq_some] at inA inB
  rw [keyed a.1 a.2 inA, keyed b.1 b.2 inB] at same
  exact distinct (by simp [same])

theorem mem_values (keyed : Keyed nodes) : n ∈ nodes.toList.map snd ↔ nodes[n.id]? = some n := by
  constructor
  · intro mem
    obtain ⟨⟨id, m⟩, entry, rfl⟩ := mem_map.1 mem
    have stored := mem_toList_iff_getElem?_eq_some.1 entry
    rwa [keyed id m stored]
  · intro stored
    exact mem_map.2 ⟨(n.id, n), mem_toList_iff_getElem?_eq_some.2 stored, rfl⟩

end

theorem orderedNodes_perm (ordered : orderedNodes fuel target = .ok nodes) :
    nodes.Perm ((target.nodes.toList.map snd).filter fun n => !n.deleted) := by
  simp only [orderedNodes, bind_eq_ok] at ordered
  obtain ⟨depths, -, sorted, arranged, same⟩ := ordered
  cases same
  exact (sortByCachedKey_perm arranged).filter _

theorem removedNodes_perm (dropped : removedNodes fuel source target = .ok removed) :
    removed.Perm ((source.nodes.toList.map snd).filter fun n =>
      !n.deleted && target.nodes[n.id]?.all fun m => m.deleted) := by
  simp only [removedNodes] at dropped
  split at dropped
  · cases dropped
    exact List.Perm.refl _
  · obtain ⟨depths, -, arranged⟩ := bind_eq_ok.1 dropped
    exact sortByCachedKey_perm arranged

/-- The value of a field before its edit; a patch of the content has set the label. -/
def fieldBefore (p : MaterializedNode) (derived : Option Value) (key : String) : Value :=
  if key = "label" then derived.getD (p.currentFields.index key) else p.currentFields.index key

section Fields

variable {p : MaterializedNode}

/-- What the visit of one field adds: nothing, an edit to the new value, or a patch of
the content. -/
theorem fieldOp_cases (acc : List EventPayload × Option Value) (key : String) :
    ((key = "var_name" ∨ key = "varName") ∧ fieldOp env source p n acc key = acc) ∨
    (key ≠ "var_name" ∧ key ≠ "varName" ∧
      ((fieldBefore p acc.2 key = n.currentFields.index key ∧
        fieldOp env source p n acc key = acc) ∨
      (fieldOp env source p n acc key =
        (acc.1 ++ [.fieldEdited n.id key (n.currentFields.index key)], acc.2)) ∨
      ∃ (prior : MaterializedNode) (before : Value) (patch : RichText.RichTextPatch),
        key = "content" ∧ source.nodes[n.id]? = some prior ∧
        prior.currentFields.get? "content" = some before ∧
        RichText.applyPatch env before patch = .ok (n.currentFields.index "content") ∧
        fieldOp env source p n acc key = (acc.1 ++ [.richTextPatched n.id patch],
          some (.str (RichText.plainText (n.currentFields.index "content")))))) := by
  by_cases mirror : key = "var_name" ∨ key = "varName"
  · exact .inl ⟨mirror, by simp [fieldOp, mirror]⟩
  · rw [not_or] at mirror
    refine .inr ⟨mirror.1, mirror.2, ?_⟩
    by_cases unchanged : fieldBefore p acc.2 key = n.currentFields.index key
    · refine .inl ⟨unchanged, ?_⟩
      simp only [fieldBefore] at unchanged
      simp [fieldOp, unchanged]
    · refine .inr ?_
      simp only [fieldBefore] at unchanged
      rcases compactEvent_cases env source n.id key (n.currentFields.index key) with
        same | ⟨prior, before, patch, rfl, stored, read, applied, patched⟩
      · exact .inl (by simp [fieldOp, mirror, unchanged, same])
      · rw [if_neg (by simp)] at unchanged
        exact .inr ⟨prior, before, patch, rfl, stored, read, applied,
          by simp [fieldOp, unchanged, patched]⟩

theorem mem_fieldOps (mem : op ∈ fieldOps env source p n) :
    (∃ key ∈ unionKeys p.currentFields n.currentFields, key ≠ "var_name" ∧ key ≠ "varName" ∧
      op = .fieldEdited n.id key (n.currentFields.index key)) ∨
    ∃ patch, op = .richTextPatched n.id patch := by
  have fold : ∀ (keys : List String) (acc : List EventPayload × Option Value),
      op ∈ (keys.foldl (fieldOp env source p n) acc).1 → op ∈ acc.1 ∨
      (∃ key ∈ keys, key ≠ "var_name" ∧ key ≠ "varName" ∧
        op = .fieldEdited n.id key (n.currentFields.index key)) ∨
      ∃ patch, op = .richTextPatched n.id patch := by
    intro keys
    induction keys with
    | nil => exact fun acc mem => .inl mem
    | cons key keys ih =>
      intro acc mem
      rcases ih _ mem with old | ⟨other, inKeys, own⟩ | patched
      · rcases fieldOp_cases acc key with ⟨-, same⟩ | ⟨notName, notMirror, ⟨-, same⟩ | same |
          ⟨_, _, patch, -, -, -, -, same⟩⟩
        · exact .inl (same ▸ old)
        · exact .inl (same ▸ old)
        · rw [same, mem_append, mem_singleton] at old
          exact old.imp_right fun new => .inl ⟨key, by simp, notName, notMirror, new⟩
        · rw [same, mem_append, mem_singleton] at old
          exact old.imp_right fun new => .inr ⟨patch, new⟩
      · exact .inr (.inl ⟨other, by simp [inKeys], own⟩)
      · exact .inr (.inr patched)
  rcases fold _ _ mem with old | rest
  · simp at old
  · exact rest

end Fields

theorem nameLater_eq_some :
    nameLater held n = some w ↔ ∃ name holder, n.varName = some name ∧ held[name]? = some holder ∧
      holder ≠ n.id ∧ w = ⟨n.id, holder, .fieldEdited n.id "var_name" (.str name)⟩ := by
  simp only [nameLater]
  cases named : n.varName with
  | none => simp
  | some name =>
    rw [Option.bind_some]
    cases found : held[name]? with
    | none =>
      simp only [reduceCtorEq, false_iff]
      rintro ⟨other, holder, same, found', -⟩
      cases same
      simp [found] at found'
    | some holder =>
      simp only
      constructor
      · intro result
        split at result
        · contradiction
        rename_i other
        cases result
        exact ⟨name, holder, rfl, found, other, rfl⟩
      · rintro ⟨_, other, ⟨⟩, found', different, rfl⟩
        rw [found] at found'
        cases found'
        rw [if_neg different]
        rfl

/-- The fields with which a node is created; a name that comes later is left out. -/
def createdFields (n : MaterializedNode) (later : Bool) : Value :=
  match later, n.currentFields.asObject with
  | true, some members => .object (members.erase "var_name")
  | _, _ => n.currentFields

section Parts

variable {waiting : Option Waiting}

/-- A node that the source does not have is created; one that it has is brought into
line, with the restore of a removed choice first. -/
theorem nodeOps_cases (taken : nodeOps env source held n = .ok (ops, waiting)) :
    (source.nodes[n.id]? = none ∧ waiting = nameLater held n ∧
      ∃ nodeType, parseNodeType n.nodeType = some nodeType ∧
        ops = [.nodeCreated n.id nodeType n.parentId n.pos (createdFields n waiting.isSome)
          (if waiting.isSome then none else n.varName)]) ∨
    ∃ p, source.nodes[n.id]? = some p ∧ p.nodeType = n.nodeType ∧
      waiting = (if p.varName ≠ n.varName ∨ p.deleted then nameLater held n else none) ∧
      ops = (if p.deleted && source.removedChoices.contains n.id then [.nodeRestored n.id] else []) ++
        moveOps p n ++
        restoreOps waiting.isSome (p.deleted && source.removedChoices.contains n.id) p n ++
        fieldOps env source p n ++ renameOps waiting.isSome p n := by
  simp only [nodeOps] at taken
  split at taken
  · rename_i absent
    refine .inl ⟨absent, ?_⟩
    simp only [createOps] at taken
    split at taken
    · contradiction
    rename_i nodeType parsed
    split at taken
    · rename_i free
      cases taken
      refine ⟨free.symm, nodeType, parsed, ?_⟩
      simp [createdFields]
    · rename_i w later
      cases taken
      refine ⟨later.symm, nodeType, parsed, ?_⟩
      simp only [createdFields, Option.isSome_some, if_true]
      cases n.currentFields.asObject <;> rfl
  · rename_i p present
    obtain ⟨sameType, taken⟩ := guard_eq_ok.1 taken
    cases taken
    exact .inr ⟨p, present, not_not.1 sameType, rfl, rfl⟩

theorem nodeOps_waiting (taken : nodeOps env source held n = .ok (ops, waiting)) :
    ∀ w ∈ waiting, nameLater held n = some w := by
  intro w mem
  rcases nodeOps_cases taken with ⟨-, same, -⟩ | ⟨p, -, -, same, -⟩
  · rw [← same]
    exact mem
  · rw [same] at mem
    split at mem
    · exact mem
    · simp at mem

theorem eq_of_mem_ite {c : Prop} [Decidable c] {a : EventPayload}
    (mem : op ∈ if c then [a] else []) : op = a := by
  split at mem
  · exact mem_singleton.1 mem
  · simp at mem

theorem nodeOps_target (taken : nodeOps env source held n = .ok (ops, waiting))
    (mem : op ∈ ops) : op.isLocal ∧ op.changedNode = some n.id := by
  rcases nodeOps_cases taken with ⟨-, -, nodeType, -, rfl⟩ | ⟨p, -, -, -, rfl⟩
  · rw [mem_singleton.1 mem]
    exact ⟨rfl, rfl⟩
  · simp only [mem_append] at mem
    rcases mem with (((mem | mem) | mem) | mem) | mem
    · rw [eq_of_mem_ite mem]
      exact ⟨rfl, rfl⟩
    · rw [eq_of_mem_ite mem]
      exact ⟨rfl, rfl⟩
    · simp only [restoreOps] at mem
      split at mem
      · rcases mem_append.1 mem with mem | mem
        · rw [eq_of_mem_ite mem]
          exact ⟨rfl, rfl⟩
        · split at mem
          · simp at mem
          rw [mem_singleton.1 mem]
          exact ⟨rfl, rfl⟩
      · simp at mem
    · rcases mem_fieldOps mem with ⟨key, -, -, -, rfl⟩ | ⟨patch, rfl⟩ <;> exact ⟨rfl, rfl⟩
    · rw [eq_of_mem_ite mem]
      exact ⟨rfl, rfl⟩

end Parts

section Release

variable {later : List Waiting}

theorem nodup_eraseDups {l : List Nat} : l.eraseDups.Nodup := by
  induction h : l.length using Nat.strongRecOn generalizing l with
  | ind length ih =>
    cases l with
    | nil => simp
    | cons a l =>
      rw [eraseDups_cons, nodup_cons]
      constructor
      · simp
      · refine ih _ ?_ rfl
        have shorter := length_filter_le (fun b => !b == a) l
        simp only [length_cons] at h
        omega

theorem filterMap_range {α β : Type} (f : α → β) (l : List α) :
    (List.range l.length).filterMap (fun i => l[i]?.map f) = l.map f := by
  induction l using List.reverseRecOn with
  | nil => rfl
  | append_singleton l a ih =>
    rw [length_append, length_singleton, range_succ, filterMap_append,
      map_append]
    congr 1
    · rw [← ih]
      apply filterMap_congr
      intro i mem
      rw [getElem?_append_left (mem_range.1 mem)]
    · simp

theorem release_within (released : loop (release later) fuel (ready later, [], []) = .ok order) :
    ∀ i ∈ order, i < later.length := by
  refine loop_post
    (fun (state : List Nat × List NodeId × List Nat) => ∀ i ∈ state.2.2, i < later.length)
    (fun order => ∀ i ∈ order, i < later.length) ?_ ?_ (by simp) released
  · rintro ⟨queue, done, order⟩ next placed step
    obtain ⟨-, ⟨⟩⟩ | ⟨i, rest, w, -, found, ⟨⟩⟩ := of_release step
    rw [forall_mem_append, forall_mem_singleton]
    exact ⟨placed, (List.getElem?_eq_some_iff.1 found).1⟩
  · rintro ⟨queue, done, order⟩ result placed step
    obtain ⟨-, ⟨⟩⟩ | ⟨i, rest, w, -, -, ⟨⟩⟩ := of_release step
    exact placed

theorem laterOps_perm (released : releaseOrder fuel later = .ok order) :
    (laterOps later order).Perm (later.map Waiting.edit) := by
  simp only [releaseOrder, bind_eq_ok] at released
  obtain ⟨first, run, same⟩ := released
  cases same
  have all : (first ++ (List.range later.length).filter (· ∉ first)).eraseDups.Perm
      (List.range later.length) := by
    rw [perm_ext_iff_of_nodup nodup_eraseDups nodup_range]
    intro i
    rw [mem_eraseDups, mem_append, mem_filter]
    constructor
    · rintro (mem | ⟨mem, -⟩)
      · exact mem_range.2 (release_within run i mem)
      · exact mem
    · intro mem
      by_cases placed : i ∈ first
      · exact .inl placed
      · exact .inr ⟨mem, by simpa using placed⟩
  have taken := all.filterMap fun i => later[i]?.map Waiting.edit
  rwa [filterMap_range] at taken

end Release

section Stages

variable (stages : Stages env fuel source target ops)

include stages in
theorem Stages.nodes_distinct (keyed : Keyed target.nodes) :
    stages.nodes.Pairwise fun a b => a.id ≠ b.id :=
  (orderedNodes_perm stages.ordered).symm.pairwise
    ((pairwise_values keyed.canonical).filter _) fun different => different.symm

theorem Stages.mem_nodes (keyed : Keyed target.nodes) :
    n ∈ stages.nodes ↔ target.canonical.nodes[n.id]? = some n ∧ n.deleted = false := by
  rw [(orderedNodes_perm stages.ordered).mem_iff, mem_filter, mem_values keyed.canonical]
  simp

theorem Stages.removed_distinct (keyed : Keyed source.nodes) :
    stages.removed.Pairwise fun a b => a.id ≠ b.id :=
  (removedNodes_perm stages.dropped).symm.pairwise
    ((pairwise_values keyed.canonical).filter _) fun different => different.symm

theorem Stages.mem_removed (keyed : Keyed source.nodes) :
    n ∈ stages.removed ↔ source.canonical.nodes[n.id]? = some n ∧ n.deleted = false ∧
      target.canonical.nodes[n.id]?.all fun m => m.deleted := by
  rw [(removedNodes_perm stages.dropped).mem_iff, mem_filter, mem_values keyed.canonical]
  simp

theorem parts_of_other
    (taken : List.Forall₂ (fun n part => nodeOps env source held n = .ok part) nodes parts)
    (absent : ∀ n ∈ nodes, n.id ≠ id) :
    (parts.flatMap fst).filter (fun op => op.changedNode = some id) = [] ∧
      (parts.filterMap snd).filter (fun w => w.block = id) = [] := by
  induction taken with
  | nil => simp
  | cons head tail ih =>
    rename_i n part nodes parts
    obtain ⟨ops, waiting⟩ := part
    obtain ⟨noOps, noWait⟩ := ih fun m mem => absent m (by simp [mem])
    have other := absent n (by simp)
    constructor
    · rw [flatMap_cons, filter_append, noOps, append_nil, filter_eq_nil_iff]
      intro op mem
      simp [(nodeOps_target head mem).2, other]
    · cases waiting with
      | none => exact noWait
      | some w =>
        obtain ⟨_, _, -, -, -, rfl⟩ := nameLater_eq_some.1 (nodeOps_waiting head w rfl)
        simpa [other] using noWait

theorem parts_of_node
    (taken : List.Forall₂ (fun n part => nodeOps env source held n = .ok part) nodes parts)
    (distinct : nodes.Pairwise fun a b => a.id ≠ b.id) (mem : n ∈ nodes) :
    ∃ part, nodeOps env source held n = .ok part ∧
      (parts.flatMap fst).filter (fun op => op.changedNode = some n.id) = part.1 ∧
      (parts.filterMap snd).filter (fun w => w.block = n.id) = part.2.toList := by
  induction taken with
  | nil => simp at mem
  | cons head tail ih =>
    rename_i m part nodes parts
    obtain ⟨ops, waiting⟩ := part
    rw [pairwise_cons] at distinct
    have headWaits : ∀ w ∈ waiting, w.block = m.id := by
      intro w waits
      obtain ⟨_, _, -, -, -, rfl⟩ := nameLater_eq_some.1 (nodeOps_waiting head w waits)
      rfl
    rcases mem_cons.1 mem with rfl | mem
    · obtain ⟨noOps, noWait⟩ := parts_of_other tail fun m mem => (distinct.1 m mem).symm
      refine ⟨(ops, waiting), head, ?_, ?_⟩
      · rw [flatMap_cons, filter_append, noOps, append_nil, filter_eq_self]
        intro op inOps
        simp [(nodeOps_target head inOps).2]
      · cases waiting with
        | none => exact noWait
        | some w => simp [headWaits w rfl, noWait]
    · obtain ⟨part, own, ownOps, ownWait⟩ := ih distinct.2 mem
      have different := distinct.1 n mem
      refine ⟨part, own, ?_, ?_⟩
      · rw [flatMap_cons, filter_append, ownOps, filter_eq_nil_iff.2, nil_append]
        intro op inOps
        simp [(nodeOps_target head inOps).2, different]
      · cases waiting with
        | none => exact ownWait
        | some w => simp [headWaits w rfl, different, ownWait]

theorem filter_deletes_eq (distinct : removed.Pairwise fun a b => a.id ≠ b.id) (id : NodeId) :
    (removed.map fun n => nodeDeleted n.id).filter
      (fun op => op.changedNode = some id) =
      if ∃ n ∈ removed, n.id = id then [.nodeDeleted id] else [] := by
  induction removed with
  | nil => simp
  | cons n removed ih =>
    rw [pairwise_cons] at distinct
    rw [map_cons, filter_cons, ih distinct.2]
    by_cases same : n.id = id
    · subst same
      have alone : ¬ ∃ m ∈ removed, m.id = n.id := by
        rintro ⟨m, mem, same⟩
        exact distinct.1 m mem same.symm
      simp [changedNode, alone]
    · simp [changedNode, same]

theorem Stages.later_target (mem : w ∈ stages.parts.filterMap snd) :
    w.edit.changedNode = some w.block := by
  obtain ⟨⟨ops, waiting⟩, inParts, rfl⟩ := mem_filterMap.1 mem
  obtain ⟨n, -, taken⟩ := exists_left_of_mem stages.taken inParts
  obtain ⟨_, _, -, -, -, rfl⟩ := nameLater_eq_some.1 (nodeOps_waiting taken w rfl)
  rfl

theorem Stages.later_of_block (id : NodeId) :
    ((laterOps (stages.parts.filterMap snd) stages.order).filter
      fun op => op.changedNode = some id).Perm
      (((stages.parts.filterMap snd).filter fun w => w.block = id).map Waiting.edit) := by
  have all := (laterOps_perm stages.released).filter fun op => op.changedNode = some id
  refine all.trans (List.Perm.of_eq ?_)
  rw [filter_map]
  congr 1
  apply filter_congr
  intro w mem
  simp [stages.later_target mem]

theorem Stages.filter_ops (id : NodeId) :
    ops.filter (fun op => op.changedNode = some id) = phased source.canonical
      ((stages.parts.flatMap fst).filter (fun op => op.changedNode = some id) ++
        (stages.removed.map fun n => nodeDeleted n.id).filter
          (fun op => op.changedNode = some id) ++
        (laterOps (stages.parts.filterMap snd) stages.order).filter
          (fun op => op.changedNode = some id)) := by
  conv_lhs => rw [stages.result]
  rw [filter_phased, filter_append, filter_append]

section Keyed

variable (keyedSource : Keyed source.nodes) (keyedTarget : Keyed target.nodes)
include stages keyedSource keyedTarget

theorem Stages.ops_of_live
    (stored : target.canonical.nodes[n.id]? = some n) (live : n.deleted = false) :
    ∃ part waiting, nodeOps env source.canonical (heldNames source.canonical) n =
        .ok (part, waiting) ∧
      ops.filter (fun op => op.changedNode = some n.id) =
        phased source.canonical (part ++ (waiting.map Waiting.edit).toList) := by
  have mem := (stages.mem_nodes keyedTarget).2 ⟨stored, live⟩
  obtain ⟨⟨part, waiting⟩, taken, ownOps, ownWait⟩ :=
    parts_of_node stages.taken (stages.nodes_distinct keyedTarget) mem
  refine ⟨part, waiting, taken, ?_⟩
  have kept : ¬ ∃ m ∈ stages.removed, m.id = n.id := by
    rintro ⟨m, dropped, same⟩
    have gone := ((stages.mem_removed keyedSource).1 dropped).2.2
    rw [same, stored, Option.all_some] at gone
    simp [live] at gone
  have later := stages.later_of_block n.id
  rw [ownWait] at later
  rw [stages.filter_ops, ownOps, filter_deletes_eq (stages.removed_distinct keyedSource),
    if_neg kept, append_nil]
  cases waiting with
  | none => rw [perm_nil.1 later]; rfl
  | some w => rw [perm_singleton.1 later]; rfl

/-- A node that only the source has alive is deleted, and nothing else. -/
theorem Stages.ops_of_removed
    (stored : source.canonical.nodes[n.id]? = some n) (live : n.deleted = false)
    (gone : target.canonical.nodes[n.id]?.all fun m => m.deleted) :
    ops.filter (fun op => op.changedNode = some n.id) = [.nodeDeleted n.id] := by
  have absent : ∀ m ∈ stages.nodes, m.id ≠ n.id := by
    intro m mem same
    obtain ⟨stored', live'⟩ := (stages.mem_nodes keyedTarget).1 mem
    rw [same] at stored'
    simp [stored', live'] at gone
  obtain ⟨noOps, noWait⟩ := parts_of_other stages.taken absent
  have later := stages.later_of_block n.id
  rw [noWait] at later
  rw [stages.filter_ops, noOps, filter_deletes_eq (stages.removed_distinct keyedSource),
    if_pos ⟨n, (stages.mem_removed keyedSource).2 ⟨stored, live, gone⟩, rfl⟩,
    perm_nil.1 later]
  rfl

theorem Stages.ops_of_dead (goneThere : target.canonical.nodes[id]?.all fun m => m.deleted)
    (goneHere : source.canonical.nodes[id]?.all fun m => m.deleted) :
    ops.filter (fun op => op.changedNode = some id) = [] := by
  have absent : ∀ m ∈ stages.nodes, m.id ≠ id := by
    rintro m mem rfl
    obtain ⟨stored, live⟩ := (stages.mem_nodes keyedTarget).1 mem
    simp [stored, live] at goneThere
  have kept : ¬ ∃ m ∈ stages.removed, m.id = id := by
    rintro ⟨m, dropped, rfl⟩
    obtain ⟨stored, live, -⟩ := (stages.mem_removed keyedSource).1 dropped
    simp [stored, live] at goneHere
  obtain ⟨noOps, noWait⟩ := parts_of_other stages.taken absent
  have later := stages.later_of_block id
  rw [noWait] at later
  rw [stages.filter_ops, noOps, filter_deletes_eq (stages.removed_distinct keyedSource),
    if_neg kept, perm_nil.1 later]
  rfl

end Keyed

end Stages

end Dynodoc.Diff
