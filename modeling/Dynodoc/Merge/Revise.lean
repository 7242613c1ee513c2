import Dynodoc.Merge.Plan

/-! What the operations of a difference do to one node: to its place, its name and whether
it lives, and to its fields. -/
namespace Dynodoc.Diff
open Std (ExtTreeMap ExtTreeSet)
open Loop List Entry Json Waiting EventPayload RichText

variable {ops : List EventPayload} {env : Externals} {others : String → Value}
  {source : DocumentState} {op : EventPayload} {key : String} {e : Entry}

section Phases

/-! A fold that neither the protection of a sheet nor the fields of a new node matter to
does not see the phases. -/

variable {σ : Type} {f : σ → EventPayload → Option σ}
  (neutral : ∀ s id v, f s (.fieldEdited id "sheet_protected" v) = some s)
  (created : ∀ s id nodeType parentId pos fields fields' varName,
    f s (.nodeCreated id nodeType parentId pos fields varName) =
      f s (.nodeCreated id nodeType parentId pos fields' varName))

include neutral in
theorem foldlM_protection {ops : List EventPayload}
    (all : ∀ op ∈ ops, ∃ id v, op = .fieldEdited id "sheet_protected" v) (s : σ) :
    ops.foldlM f s = some s := by
  induction ops with
  | nil => rfl
  | cons op ops ih =>
    obtain ⟨id, v, same⟩ := all op (by simp)
    rw [foldlM_cons, same, neutral]
    exact ih fun op mem => all op (by simp [mem])

include neutral created in
theorem foldlM_content (source : DocumentState) (ops : List EventPayload) (s : σ) :
    (ops.flatMap fun op => (pieces source op).content).foldlM f s = ops.foldlM f s := by
  induction ops generalizing s with
  | nil => rfl
  | cons op ops ih =>
    rw [flatMap_cons, foldlM_append, foldlM_cons]
    have here : (pieces source op).content.foldlM f s = f s op := by
      rcases pieces_cases source op with ⟨id, v, rfl, ⟨-, same⟩ | same⟩ |
        ⟨id, nodeType, parentId, pos, fields, varName, rfl, -, same⟩ | same
      · rw [same, neutral]
        rfl
      · rw [same, neutral]
        rfl
      · rw [same, created s id nodeType parentId pos fields
          ((fields.setIndex "sheet_protected" (.bool false)).getD fields) varName]
        simp
      · simp [same]
    rw [here]
    cases f s op with
    | none => rfl
    | some s' => exact ih s'

include neutral created in
theorem foldlM_phased (source : DocumentState) (ops : List EventPayload) (s : σ) :
    (phased source ops).foldlM f s = ops.foldlM f s := by
  have unlocks : ∀ s, (ops.flatMap fun op => (pieces source op).unlocks).foldlM f s = some s := by
    apply foldlM_protection neutral
    intro piece mem
    obtain ⟨id, v, same, -⟩ := mem_unlocks source mem
    exact ⟨id, v, same⟩
  have locks : ∀ s, (ops.flatMap fun op => (pieces source op).locks).foldlM f s = some s := by
    apply foldlM_protection neutral
    intro piece mem
    obtain ⟨id, v, same, -⟩ := mem_locks source mem
    exact ⟨id, v, same⟩
  rw [phased_eq, foldlM_append, foldlM_append, unlocks]
  change ((ops.flatMap fun op => (pieces source op).content).foldlM f s).bind _ = _
  rw [foldlM_content neutral created]
  cases ops.foldlM f s with
  | none => rfl
  | some s' => exact locks s'

end Phases

/-- The phases do not change what the operations do to the entry apart from its fields. -/
theorem foldl_step_phased (source : DocumentState) (ops : List EventPayload) (e : Entry) :
    (phased source ops).foldl step e = ops.foldl step e := by
  have same := @foldlM_phased Entry (fun e op => pure (e.step op)) (by simp [step])
    (by simp [step]) source ops e
  rw [foldlM_pure, foldlM_pure] at same
  exact Option.some.inj same

/-- What an operation does to the content and the label of a node. -/
def textStep (env : Externals) (text : Value × Value) : EventPayload → Option (Value × Value)
  | .richTextPatched _ patch =>
    (RichText.applyPatch env text.1 patch).toOption.map fun content =>
      (content, .str (RichText.plainText content))
  | .fieldEdited _ field value =>
    if field = "content" then some (value, text.2)
    else if field = "label" then some (text.1, value)
    else some text
  | _ => some text

/-- What an operation does to a field that is neither the content nor the label. -/
def keyStep (key : String) (v : Value) : EventPayload → Value
  | .fieldEdited _ field value => if field = key then value else v
  | _ => v

/-- The operations that change a node in place. -/
def Revises : EventPayload → Prop
  | .nodeMoved .. | .nodeDeleted _ | .nodeRestored _ | .fieldEdited .. | .richTextPatched .. => True
  | _ => False

structure FieldsAre (m : MaterializedNode) (text : Value × Value) (others : String → Value) :
    Prop where
  object : m.currentFields.isObject
  content : m.currentFields.index "content" = text.1
  label : m.currentFields.index "label" = text.2
  others : ∀ key, key ≠ "content" → key ≠ "label" → m.currentFields.index key = others key

theorem index_object_insert (members : ExtTreeMap String Value) (key other : String) (v : Value) :
    (object (members.insert key v)).index other =
      if other = key then v else (object members).index other := by
  simp only [index, get?_object, OrderedMap.getElem?_insert]
  split <;> rfl

variable {text text' : Value × Value} {m : MaterializedNode}

theorem apply_fields (revises : Revises op) (stored : e.node = some m)
    (fields : FieldsAre m text others) (stepped : textStep env text op = some text') :
    ∃ e' m', e.apply env op = .ok e' ∧ e'.node = some m' ∧
      FieldsAre m' text' fun key => keyStep key (others key) op := by
  obtain ⟨members, isObject⟩ := isObject_iff.1 fields.object
  cases op with
  | nodeMoved =>
    cases stepped
    exact ⟨_, _, update_of_some stored rfl, rfl, fields.object, fields.content, fields.label,
      fields.others⟩
  | nodeDeleted =>
    cases stepped
    exact ⟨_, _, update_of_some stored rfl, rfl, fields.object, fields.content, fields.label,
      fields.others⟩
  | nodeRestored =>
    cases stepped
    refine ⟨⟨some { m with deleted := false }, false⟩, _, ?_, rfl, fields.object, fields.content,
      fields.label, fields.others⟩
    simp [apply, update, stored, Except.map]
  | fieldEdited id field value =>
    have edited : ∃ m', editNode field value m id = .ok m' ∧
        m'.currentFields = .object (members.insert field value) := by
      simp only [editNode, isObject, Json.asObject_object]
      split
      · exact ⟨_, rfl, rfl⟩
      · exact ⟨_, rfl, rfl⟩
    obtain ⟨m', edited, written⟩ := edited
    have reads : ∀ key, m'.currentFields.index key =
        if key = field then value else m.currentFields.index key := by
      intro key
      rw [written, index_object_insert, isObject]
    refine ⟨_, m', update_of_some stored edited, rfl, ?_⟩
    simp only [textStep] at stepped
    refine ⟨by simp [written, Json.isObject], ?_, ?_, ?_⟩
    · rw [reads, fields.content]
      split at stepped
      · rename_i same
        cases stepped
        simp [same]
      · rename_i other
        rw [if_neg fun same => other same.symm]
        split at stepped <;> cases stepped <;> rfl
    · rw [reads, fields.label]
      split at stepped
      · rename_i same
        cases stepped
        simp [same]
      · split at stepped
        · rename_i same
          cases stepped
          simp [same]
        · rename_i other
          cases stepped
          rw [if_neg fun same => other same.symm]
    · intro key notContent notLabel
      rw [reads, fields.others key notContent notLabel]
      simp [keyStep, eq_comm]
  | richTextPatched id patch =>
    simp only [textStep, Option.map_eq_some_iff] at stepped
    obtain ⟨content, applied, rfl⟩ := stepped
    have applied' : applyPatch env text.1 patch = .ok content := by
      cases result : applyPatch env text.1 patch <;> simp_all [Except.toOption]
    have patched : ∃ m', patchNode env patch m id = .ok m' ∧ m'.currentFields = .object
        ((members.insert "label" (.str (plainText content))).insert "content" content) := by
      rw [patchNode, fields.content, applied', isObject]
      simp only [Json.asObject_object]
      exact ⟨_, rfl, rfl⟩
    obtain ⟨m', patched, written⟩ := patched
    refine ⟨_, m', update_of_some stored patched, rfl, by simp [written, Json.isObject], ?_,
      ?_, ?_⟩
    · simp [written, index_object_insert]
    · simp [written, index_object_insert]
    · intro key notContent notLabel
      simp only [written, index_object_insert, if_neg notContent, if_neg notLabel, keyStep]
      rw [← isObject]
      exact fields.others key notContent notLabel
  | _ => exact revises.elim

theorem foldlM_apply_fields (revise : ∀ op ∈ ops, Revises op)
    (stored : e.node = some m) (fields : FieldsAre m text others)
    (stepped : ops.foldlM (textStep env) text = some text') :
    ∃ e' m', ops.foldlM (apply env) e = .ok e' ∧ e'.node = some m' ∧
      FieldsAre m' text' fun key => ops.foldl (keyStep key) (others key) := by
  induction ops generalizing e m text others with
  | nil =>
    cases stepped
    exact ⟨e, m, rfl, stored, fields⟩
  | cons op ops ih =>
    rw [foldlM_cons] at stepped
    cases first : textStep env text op with
    | none => simp [first] at stepped
    | some next =>
      rw [first] at stepped
      obtain ⟨e₁, m₁, applied, stored₁, fields₁⟩ :=
        apply_fields (revise op (by simp)) stored fields first
      obtain ⟨e', m', rest, stored', fields'⟩ :=
        ih (fun op mem => revise op (by simp [mem])) stored₁ fields₁ stepped
      refine ⟨e', m', ?_, stored', fields'⟩
      simp only [foldlM_cons, applied, Bind.bind, Except.bind]
      exact rest

/-- When every edit of a field writes one value, and there is one or the field has it
already, the field has that value in the end. -/
theorem foldl_keyStep {v x : Value} (writes : ∀ id w, .fieldEdited id key w ∈ ops → w = x)
    (reached : v = x ∨ ∃ id, .fieldEdited id key x ∈ ops) : ops.foldl (keyStep key) v = x := by
  induction ops generalizing v with
  | nil => simpa using reached
  | cons op ops ih =>
    refine ih (fun id w mem => writes id w (by simp [mem])) ?_
    by_cases here : ∃ id w, op = .fieldEdited id key w
    · obtain ⟨id, w, rfl⟩ := here
      exact .inl (by simp [keyStep, writes id w (by simp)])
    · have same : keyStep key v op = v := by
        cases op with
        | fieldEdited id field value =>
          have other : field ≠ key := by
            rintro rfl
            exact here ⟨id, value, rfl⟩
          simp [keyStep, other]
        | _ => rfl
      rw [same]
      refine reached.imp_right ?_
      rintro ⟨id, mem⟩
      rcases mem_cons.1 mem with rfl | mem
      · exact absurd ⟨id, x, rfl⟩ here
      · exact ⟨id, mem⟩

section Fields

variable {p n : MaterializedNode}

theorem ordered_unionKeys (a b : Value) :
    (unionKeys a b).Pairwise fun key other => compare key other = .lt :=
  ExtTreeSet.ordered_toList

/-- What the visit of one field does to the content and the label. -/
theorem fieldOp_text (known : source.nodes[n.id]? = some p) (key : String)
    {acc : List EventPayload × Option Value}
    {start text : Value × Value} (before : acc.1.foldlM (textStep env) start = some text)
    (content : key = "content" → text.1 = p.currentFields.index "content")
    (label : key = "label" → text.2 = fieldBefore p acc.2 "label") :
    ∃ text', (fieldOp env source p n acc key).1.foldlM (textStep env) start = some text' ∧
      text'.1 = (if key = "content" then n.currentFields.index "content" else text.1) ∧
      (key = "label" → text'.2 = n.currentFields.index "label") ∧
      (key ≠ "label" → text.2 = fieldBefore p acc.2 "label" →
        text'.2 = fieldBefore p (fieldOp env source p n acc key).2 "label") ∧
      (key ≠ "label" → key ≠ "content" → text'.2 = text.2) := by
  have appended : ∀ op, (acc.1 ++ [op]).foldlM (textStep env) start = textStep env text op := by
    intro op
    rw [foldlM_append, before]
    simp
  rcases @fieldOp_cases n env source p acc key with ⟨mirror, same⟩ | ⟨-, -,
    ⟨unchanged, same⟩ | same | ⟨prior, value, patch, rfl, stored, held, applied, same⟩⟩ <;> rw [same]
  · have other : key ≠ "content" ∧ key ≠ "label" := by rcases mirror with rfl | rfl <;> decide
    exact ⟨text, before, by simp [other], by simp [other], fun _ same => same, fun _ _ => rfl⟩
  · refine ⟨text, before, ?_, fun isLabel => ?_, fun _ same => same, fun _ _ => rfl⟩
    · split
      · rename_i isContent
        subst isContent
        exact (content rfl).trans unchanged
      · rfl
    · subst isLabel
      exact (label rfl).trans unchanged
  · rw [appended, textStep]
    split
    · rename_i isContent
      exact ⟨_, rfl, by simp [isContent], by simp [isContent], fun _ same => same, fun _ _ => rfl⟩
    · split
      · rename_i isLabel
        exact ⟨_, rfl, rfl, by simp [isLabel], by simp [isLabel], by simp [isLabel]⟩
      · rename_i other
        exact ⟨_, rfl, rfl, by simp [other], fun _ same => same, fun _ _ => rfl⟩
  · rw [known] at stored
    cases stored
    have start' : text.1 = value := (content rfl).trans (by simp [index, held])
    refine ⟨(n.currentFields.index "content", .str (plainText (n.currentFields.index "content"))),
      ?_, rfl, by simp, fun _ _ => ?_, by simp⟩
    · simp [appended, textStep, start', applied, Except.toOption]
    · simp [fieldBefore]

/-- The visit of the fields in order: the content comes before the label, so an edit of
the label is compared with what a patch of the content has made of it. -/
theorem foldl_fieldOp_text (known : source.nodes[n.id]? = some p) {keys : List String}
    (ordered : keys.Pairwise fun key other => compare key other = .lt)
    {acc : List EventPayload × Option Value} {start text : Value × Value}
    (before : acc.1.foldlM (textStep env) start = some text)
    (content : "content" ∈ keys → text.1 = p.currentFields.index "content")
    (label : "label" ∈ keys → text.2 = fieldBefore p acc.2 "label") :
    ∃ text', (keys.foldl (fieldOp env source p n) acc).1.foldlM (textStep env) start = some text' ∧
      (if "content" ∈ keys then text'.1 = n.currentFields.index "content" else text'.1 = text.1) ∧
      ("label" ∈ keys → text'.2 = n.currentFields.index "label") ∧
      ("label" ∉ keys → "content" ∉ keys → text'.2 = text.2) := by
  induction keys generalizing acc text with
  | nil => exact ⟨text, before, by simp⟩
  | cons key keys ih =>
    rw [pairwise_cons] at ordered
    have own : key ∉ keys := fun mem => by simpa using ordered.1 key mem
    obtain ⟨text₁, run, content₁, label₁, passed, kept⟩ := fieldOp_text known key before
      (fun isContent => content (by simp [isContent])) (fun isLabel => label (by simp [isLabel]))
    obtain ⟨text', run', content', label', kept'⟩ := ih ordered.2 run
      (fun mem => content₁.trans ((if_neg (by rintro rfl; exact own mem)).trans (content (by simp [mem]))))
      (fun mem => passed (by rintro rfl; exact own mem) (label (by simp [mem])))
    refine ⟨text', run', ?_, ?_, ?_⟩
    · by_cases isContent : key = "content"
      · subst isContent
        rw [if_neg own, content₁, if_pos rfl] at content'
        simpa using content'
      · rw [content₁, if_neg isContent] at content'
        simpa [Ne.symm isContent] using content'
    · intro mem
      rcases mem_cons.1 mem with rfl | mem
      · -- The content comes before the label.
        have last : "content" ∉ keys := fun mem => absurd (ordered.1 "content" mem) (by decide)
        exact (kept' own last).trans (label₁ rfl)
      · exact label' mem
    · intro noLabel noContent
      simp only [mem_cons, not_or] at noLabel noContent
      exact (kept' noLabel.2 noContent.2).trans (kept (Ne.symm noLabel.1) (Ne.symm noContent.1))

theorem fieldOps_text (env : Externals) (known : source.nodes[n.id]? = some p) :
    ∃ text, (fieldOps env source p n).foldlM (textStep env)
        (p.currentFields.index "content", p.currentFields.index "label") = some text ∧
      ("content" ∈ unionKeys p.currentFields n.currentFields →
        text.1 = n.currentFields.index "content") ∧
      ("label" ∈ unionKeys p.currentFields n.currentFields →
        text.2 = n.currentFields.index "label") := by
  obtain ⟨text, run, content, label, -⟩ := @foldl_fieldOp_text env source p n known _
    (ordered_unionKeys p.currentFields n.currentFields) ([], none)
    (p.currentFields.index "content", p.currentFields.index "label") _ rfl (fun _ => rfl)
    fun _ => rfl
  refine ⟨text, run, fun mem => ?_, label⟩
  rwa [if_pos mem] at content

theorem edit_mem_fieldOps (mem : key ∈ unionKeys p.currentFields n.currentFields)
    (notName : key ≠ "var_name" ∧ key ≠ "varName") (notText : key ≠ "content" ∧ key ≠ "label")
    (changed : p.currentFields.index key ≠ n.currentFields.index key) :
    .fieldEdited n.id key (n.currentFields.index key) ∈ fieldOps env source p n := by
  have grows : ∀ (keys : List String) (acc : List EventPayload × Option Value),
      acc.1 ⊆ (keys.foldl (fieldOp env source p n) acc).1 := by
    intro keys
    induction keys with
    | nil => exact fun acc _ mem => mem
    | cons other keys ih =>
      intro acc op mem
      refine ih _ ?_
      rcases @fieldOp_cases n env source p acc other with ⟨-, same⟩ | ⟨-, -, ⟨-, same⟩ | same |
        ⟨_, _, _, -, -, -, -, same⟩⟩ <;> rw [same] <;> simp [mem]
  have visited : ∀ (keys : List String) (acc : List EventPayload × Option Value), key ∈ keys →
      .fieldEdited n.id key (n.currentFields.index key) ∈
        (keys.foldl (fieldOp env source p n) acc).1 := by
    intro keys
    induction keys with
    | nil => simp
    | cons other keys ih =>
      intro acc mem
      rcases mem_cons.1 mem with rfl | mem
      · refine grows keys _ ?_
        rcases @fieldOp_cases n env source p acc key with ⟨mirror, -⟩ | ⟨-, -, ⟨unchanged, -⟩ |
          same | ⟨_, _, _, isContent, -⟩⟩
        · exact absurd mirror (not_or.2 notName)
        · rw [fieldBefore, if_neg notText.2] at unchanged
          exact absurd unchanged changed
        · simp [same]
        · exact absurd isContent notText.1
      · exact ih _ mem
  exact visited _ _ mem

end Fields

section Update

variable {held : ExtTreeMap String NodeId} {p n m : MaterializedNode} {removed : Bool}
variable {waiting : Option Waiting}

theorem step_of_mem_fieldOps (mem : op ∈ fieldOps env source p n) (e : Entry) : e.step op = e := by
  rcases mem_fieldOps mem with ⟨key, -, notName, notMirror, rfl⟩ | ⟨patch, rfl⟩
  · simp [step, notName, notMirror]
  · rfl

theorem foldl_step_of_mem_fieldOps (within : ops ⊆ fieldOps env source p n)
    (e : Entry) : ops.foldl step e = e := by
  induction ops with
  | nil => rfl
  | cons op ops ih =>
    rw [foldl_cons, step_of_mem_fieldOps (within (by simp))]
    exact ih fun op mem => within (by simp [mem])

theorem foldl_step_moveOps (parent : m.parentId = p.parentId) (pos : m.pos = p.pos) :
    (moveOps p n).foldl step ⟨some m, removed⟩ =
      ⟨some { m with parentId := n.parentId, pos := n.pos }, removed⟩ := by
  simp only [moveOps]
  split
  · rfl
  rename_i same
  rw [not_or, not_not, not_not] at same
  simp [← same.1, ← same.2, ← parent, ← pos]

theorem foldl_step_restoreOps (gone : p.deleted = true) (named : m.varName = p.varName)
    (later chosen : Bool) :
    ∃ name, (restoreOps later chosen p n).foldl step ⟨some m, removed⟩ =
        (if chosen then ⟨some { m with varName := name }, removed⟩
          else ⟨some { m with varName := name, deleted := false }, false⟩) ∧
      name.getD "" = if later then "" else n.varName.getD "" := by
  simp only [restoreOps, gone, if_true]
  by_cases same : (if later then "" else n.varName.getD "") = p.varName.getD ""
  · refine ⟨m.varName, ?_, by rw [named, same]⟩
    cases chosen <;> simp [same, step]
  · refine ⟨some (if later then "" else n.varName.getD ""), ?_, rfl⟩
    cases chosen <;> simp [same, step]

/-- The name of a node between its own operations and the edit that waits. -/
def pendingName (waiting : Option Waiting) (p n : MaterializedNode) : String :=
  if waiting.isSome then if p.deleted then "" else p.varName.getD "" else n.varName.getD ""

/-- The operations for a node that the source has, without the edit that waits. -/
def updates (env : Externals) (source : DocumentState) (waiting : Option Waiting)
    (p n : MaterializedNode) : List EventPayload :=
  (if p.deleted && source.removedChoices.contains n.id then [.nodeRestored n.id] else []) ++
    moveOps p n ++
    restoreOps waiting.isSome (p.deleted && source.removedChoices.contains n.id) p n ++
    fieldOps env source p n ++ renameOps waiting.isSome p n

/-- The entry of a node keeps apart what `p` joins: that it was deleted, and that it is a removed
choice. -/
structure Joins (p m : MaterializedNode) (removed : Bool) : Prop where
  parent : m.parentId = p.parentId
  pos : m.pos = p.pos
  named : m.varName = p.varName
  dead : p.deleted = (m.deleted || removed)

/-- A removed choice lives before it moves; any other tombstone does not. -/
theorem foldl_step_placed (joins : Joins p m removed) :
    (if p.deleted && removed then [nodeRestored n.id] else []).foldl step
        ⟨some m, removed⟩ = ⟨some { m with deleted := m.deleted && !removed }, false⟩ ∧
      ((if p.deleted && removed then [nodeRestored n.id] else []) ++
        moveOps p n).foldl step ⟨some m, removed⟩ =
        ⟨some { m with
          parentId := n.parentId, pos := n.pos, deleted := m.deleted && !removed }, false⟩ := by
  have first : (if p.deleted && removed then [nodeRestored n.id] else []).foldl
      step ⟨some m, removed⟩ = ⟨some { m with deleted := m.deleted && !removed }, false⟩ := by
    cases removed with
    | true => simp [joins.dead, step]
    | false => simp
  refine ⟨first, ?_⟩
  rw [foldl_append, first]
  exact @foldl_step_moveOps p n { m with deleted := m.deleted && !removed } false joins.parent joins.pos

/-- A node stands at its place and lives before its fields are edited. -/
theorem foldl_step_front (joins : Joins p m removed) (later : Bool) :
    ∃ name, ((if p.deleted && removed then [nodeRestored n.id] else []) ++ moveOps p n ++
        restoreOps later (p.deleted && removed) p n).foldl step ⟨some m, removed⟩ =
        ⟨some { m with
          parentId := n.parentId, pos := n.pos, varName := name, deleted := false }, false⟩ ∧
      if p.deleted then name.getD "" = (if later then "" else n.varName.getD "")
        else name = p.varName := by
  rw [foldl_append, (foldl_step_placed joins).2]
  cases gone : p.deleted with
  | true =>
    obtain ⟨name, run, known⟩ := @foldl_step_restoreOps p n { m with
      parentId := n.parentId, pos := n.pos, deleted := m.deleted && !removed } false gone joins.named later
      removed
    refine ⟨name, ?_, known⟩
    rw [Bool.true_and, run]
    cases removed <;> simp
  | false =>
    have live := joins.dead
    rw [gone, eq_comm, Bool.or_eq_false_iff] at live
    exact ⟨m.varName, by simp [restoreOps, gone, live.1], joins.named⟩

theorem foldl_step_updates (joins : Joins p m removed)
    (listed : source.removedChoices.contains n.id = removed) (waiting : Option Waiting) :
    ∃ name, (updates env source waiting p n).foldl step ⟨some m, removed⟩ =
        ⟨some { m with
          parentId := n.parentId, pos := n.pos, varName := name, deleted := false }, false⟩ ∧
      name.getD "" = pendingName waiting p n := by
  obtain ⟨name, front, known⟩ := @foldl_step_front p n m removed joins waiting.isSome
  rw [updates, listed, foldl_append, foldl_append, front,
    foldl_step_of_mem_fieldOps (List.Subset.refl _)]
  simp only [renameOps, pendingName]
  by_cases gone : p.deleted = true
  · rw [if_pos gone] at known
    exact ⟨name, by simp [gone], by rw [known, if_pos gone]⟩
  · rw [if_neg gone] at known
    subst known
    by_cases renamed : p.varName ≠ n.varName ∧ waiting.isSome = false
    · refine ⟨some (n.varName.getD ""), ?_, by simp [renamed.2]⟩
      simp [renamed.1, renamed.2, gone, step, asStr]
    · refine ⟨p.varName, ?_, ?_⟩
      · rw [if_neg (by simpa [gone] using renamed)]
        rfl
      · rw [if_neg gone]
        split
        · rfl
        rename_i notWaiting
        have same : p.varName = n.varName := by
          by_contra different
          exact renamed ⟨different, by simpa using notWaiting⟩
        rw [same]

/-- The operations that leave all fields but the name alone. -/
def ShellOp (op : EventPayload) : Prop :=
  (∃ id, op = .nodeRestored id) ∨ (∃ id parentId pos, op = .nodeMoved id parentId pos) ∨
    ∃ id v, op = .fieldEdited id "var_name" v

theorem ShellOp.revises (shell : ShellOp op) : Revises op := by
  rcases shell with ⟨id, rfl⟩ | ⟨id, parentId, pos, rfl⟩ | ⟨id, v, rfl⟩ <;> trivial

theorem shellOp_restored {c : Prop} [Decidable c] {id : NodeId}
    (mem : op ∈ if c then [nodeRestored id] else []) : ShellOp op :=
  .inl ⟨id, eq_of_mem_ite mem⟩

theorem shellOp_moveOps (mem : op ∈ moveOps p n) : ShellOp op :=
  .inr (.inl ⟨_, _, _, eq_of_mem_ite mem⟩)

theorem shellOp_restoreOps {later chosen : Bool}
    (mem : op ∈ restoreOps later chosen p n) : ShellOp op := by
  simp only [restoreOps] at mem
  split at mem
  · rcases mem_append.1 mem with mem | mem
    · exact .inr (.inr ⟨_, _, eq_of_mem_ite mem⟩)
    · split at mem
      · simp at mem
      · exact .inl ⟨_, mem_singleton.1 mem⟩
  · simp at mem

theorem shellOp_renameOps {later : Bool} (mem : op ∈ renameOps later p n) : ShellOp op :=
  .inr (.inr ⟨_, _, eq_of_mem_ite mem⟩)

theorem shellOp_waiting (waits : ∀ w ∈ waiting, nameLater held n = some w)
    (mem : op ∈ (waiting.map edit).toList) : ShellOp op := by
  cases waiting with
  | none => simp at mem
  | some w =>
    obtain ⟨_, _, -, -, -, rfl⟩ := nameLater_eq_some.1 (waits w rfl)
    simp only [Option.map_some, Option.toList_some, mem_singleton] at mem
    exact .inr (.inr ⟨_, _, mem⟩)

theorem updates_groups (waits : ∀ w ∈ waiting, nameLater held n = some w) :
    ∃ front back, updates env source waiting p n ++ (waiting.map edit).toList =
        front ++ fieldOps env source p n ++ back ∧
      (∀ op ∈ front, ShellOp op) ∧ ∀ op ∈ back, ShellOp op := by
  refine ⟨_, _, append_assoc .., ?_, ?_⟩
  · intro op mem
    rcases mem_append.1 mem with mem | mem
    · rcases mem_append.1 mem with mem | mem
      · exact shellOp_restored mem
      · exact shellOp_moveOps mem
    · exact shellOp_restoreOps mem
  · intro op mem
    rcases mem_append.1 mem with mem | mem
    · exact shellOp_renameOps mem
    · exact shellOp_waiting waits mem

theorem foldlM_text_shell (shell : ∀ op ∈ ops, ShellOp op)
    (text : Value × Value) : ops.foldlM (textStep env) text = some text := by
  induction ops with
  | nil => rfl
  | cons op ops ih =>
    have same : textStep env text op = some text := by
      rcases shell op (by simp) with ⟨id, rfl⟩ | ⟨id, parentId, pos, rfl⟩ | ⟨id, v, rfl⟩ <;>
        simp [textStep]
    rw [foldlM_cons, same]
    exact ih fun op mem => shell op (by simp [mem])

theorem mem_phased (revise : ∀ op ∈ ops, Revises op) : op ∈ phased source ops ↔ op ∈ ops := by
  have each : ∀ op ∈ ops, ∀ piece, (piece ∈ (pieces source op).unlocks ∨
      piece ∈ (pieces source op).content ∨ piece ∈ (pieces source op).locks) ↔ piece = op := by
    intro op mem piece
    rcases pieces_cases source op with ⟨id, v, rfl, ⟨-, same⟩ | same⟩ |
      ⟨_, _, _, _, _, _, rfl, -, -⟩ | same
    · simp [same]
    · simp [same]
    · exact (revise _ mem).elim
    · simp [same]
  simp only [phased_eq, mem_append, mem_flatMap, or_assoc]
  constructor
  · rintro (⟨other, mem, piece⟩ | ⟨other, mem, piece⟩ | ⟨other, mem, piece⟩)
    · exact (each other mem op).1 (.inl piece) ▸ mem
    · exact (each other mem op).1 (.inr (.inl piece)) ▸ mem
    · exact (each other mem op).1 (.inr (.inr piece)) ▸ mem
  · intro mem
    rcases (each op mem op).2 rfl with piece | piece | piece
    · exact .inl ⟨op, mem, piece⟩
    · exact .inr (.inl ⟨op, mem, piece⟩)
    · exact .inr (.inr ⟨op, mem, piece⟩)

theorem updates_fields (known : source.nodes[n.id]? = some p) {e : Entry} (stored : e.node = some m)
    (same : m.currentFields = p.currentFields) (object : p.currentFields.isObject)
    (waits : ∀ w ∈ waiting, nameLater held n = some w) :
    ∃ e' m', (phased source (updates env source waiting p n ++
        (waiting.map edit).toList)).foldlM (apply env) e = .ok e' ∧
      e'.node = some m' ∧ ∀ key, key ≠ "var_name" → key ≠ "varName" →
        key ∈ p.currentFields.keys ∨ key ∈ n.currentFields.keys →
        m'.currentFields.index key = n.currentFields.index key := by
  obtain ⟨front, back, groups, shellFront, shellBack⟩ :=
    @updates_groups env source held p n waiting waits
  rw [groups]
  have revise : ∀ op ∈ front ++ fieldOps env source p n ++ back, Revises op := by
    intro op mem
    simp only [mem_append] at mem
    rcases mem with (mem | mem) | mem
    · exact (shellFront op mem).revises
    · rcases mem_fieldOps mem with ⟨key, -, -, -, rfl⟩ | ⟨patch, rfl⟩ <;> trivial
    · exact (shellBack op mem).revises
  obtain ⟨text', run, content, label⟩ := fieldOps_text env known
  have text : (phased source (front ++ fieldOps env source p n ++ back)).foldlM (textStep env)
      (p.currentFields.index "content", p.currentFields.index "label") = some text' := by
    rw [foldlM_phased (by simp [textStep]) (by simp [textStep]), foldlM_append,
      foldlM_append, foldlM_text_shell shellFront]
    change ((fieldOps env source p n).foldlM (textStep env) _).bind _ = _
    rw [run]
    exact foldlM_text_shell shellBack text'
  obtain ⟨e', m', applied, stored', fields⟩ := foldlM_apply_fields
    (fun op mem => revise op ((mem_phased revise).1 mem)) stored
    ⟨same ▸ object, by rw [same], by rw [same], fun key _ _ => rfl⟩ text
  refine ⟨e', m', applied, stored', fun key notName notMirror either => ?_⟩
  have visited : key ∈ unionKeys p.currentFields n.currentFields := mem_unionKeys.2 either
  by_cases isContent : key = "content"
  · subst isContent
    rw [fields.content, content visited]
  · by_cases isLabel : key = "label"
    · subst isLabel
      rw [fields.label, label visited]
    · rw [fields.others key isContent isLabel]
      -- All edits of the field write the target's value.
      apply foldl_keyStep
      · intro id w mem
        rw [mem_phased revise] at mem
        simp only [mem_append] at mem
        have notShell : ¬ ShellOp (.fieldEdited id key w) := by
          rintro (⟨_, h⟩ | ⟨_, _, _, h⟩ | ⟨_, _, h⟩) <;> cases h
          exact notName rfl
        rcases mem with (mem | mem) | mem
        · exact absurd (shellFront _ mem) notShell
        · rcases mem_fieldOps mem with ⟨other, -, -, -, h⟩ | ⟨patch, h⟩ <;> cases h
          rfl
        · exact absurd (shellBack _ mem) notShell
      · by_cases changed : p.currentFields.index key = n.currentFields.index key
        · exact .inl (same ▸ changed)
        · refine .inr ⟨n.id, (mem_phased revise).2 ?_⟩
          simp [edit_mem_fieldOps visited ⟨notName, notMirror⟩ ⟨isContent, isLabel⟩ changed]

theorem createdFields_spec (object : n.currentFields.isObject) (later : Bool) :
    (createdFields n later).isObject ∧ ∀ key, key ≠ "var_name" →
      (createdFields n later).index key = n.currentFields.index key := by
  obtain ⟨members, isObject⟩ := Json.isObject_iff.1 object
  cases later with
  | false => exact ⟨object, fun _ _ => rfl⟩
  | true =>
    simp only [createdFields, isObject]
    refine ⟨by simp [Json.isObject], fun key notName => ?_⟩
    simp [Json.index, notName]

theorem phased_waiting (waits : ∀ w ∈ waiting, nameLater held n = some w) (op : EventPayload) :
    phased source (op :: (waiting.map edit).toList) = (pieces source op).unlocks ++
      ((pieces source op).content ++ (waiting.map edit).toList) ++
      (pieces source op).locks := by
  rw [phased_eq]
  cases waiting with
  | none => simp
  | some w =>
    obtain ⟨name, _, -, -, -, rfl⟩ := nameLater_eq_some.1 (waits w rfl)
    have alone : pieces source (.fieldEdited n.id "var_name" (.str name)) =
        ⟨[], [.fieldEdited n.id "var_name" (.str name)], []⟩ := by
      simp [pieces, phase]
    simp [alone]

/-- A node is created and then edited in its name and its protection only. -/
theorem create_then_edit {fields : Value} (object : fields.isObject) {tail : List EventPayload}
    (edits : ∀ op ∈ tail, ShellOp op ∨ op = .fieldEdited n.id "sheet_protected"
      (n.currentFields.index "sheet_protected"))
    (agree : ∀ key, key ≠ "var_name" → fields.index key = n.currentFields.index key ∨
      .fieldEdited n.id key (n.currentFields.index key) ∈ tail)
    (nodeType : NodeType) (name : Option String) (e : Entry) :
    ∃ e' m', (.nodeCreated n.id nodeType n.parentId n.pos fields name :: tail).foldlM
        (apply env) e = .ok e' ∧ e'.node = some m' ∧
      ∀ key, key ≠ "var_name" → key ≠ "varName" →
        m'.currentFields.index key = n.currentFields.index key := by
  have revise : ∀ op ∈ tail, Revises op := by
    intro op mem
    rcases edits op mem with shell | rfl
    · exact shell.revises
    · trivial
  have neutral : ∀ text, tail.foldlM (textStep env) text = some text := by
    clear agree revise
    induction tail with
    | nil => exact fun text => rfl
    | cons op tail ih =>
      intro text
      have same : textStep env text op = some text := by
        rcases edits op (by simp) with shell | rfl
        · rcases shell with ⟨id, rfl⟩ | ⟨id, parentId, pos, rfl⟩ | ⟨id, v, rfl⟩ <;> simp [textStep]
        · simp [textStep]
      rw [foldlM_cons, same]
      exact ih (fun op mem => edits op (by simp [mem])) text
  have writes : ∀ key, key ≠ "var_name" → ∀ id w, .fieldEdited id key w ∈ tail →
      key = "sheet_protected" ∧ w = n.currentFields.index key := by
    intro key notName id w mem
    rcases edits _ mem with (⟨_, h⟩ | ⟨_, _, _, h⟩ | ⟨_, _, h⟩) | h <;> cases h
    · exact absurd rfl notName
    · exact ⟨rfl, rfl⟩
  have kept : objectOrValue fields = fields := by
    obtain ⟨members, isObject⟩ := isObject_iff.1 object
    simp [objectOrValue, isObject]
  obtain ⟨e', m', run, stored, final⟩ := foldlM_apply_fields revise
    (e := { e with node := some ⟨n.id, n.parentId, nodeType.asStr, n.pos, fields, name, false⟩ }) rfl
    ⟨object, rfl, rfl, fun key _ _ => rfl⟩ (neutral (fields.index "content", fields.index "label"))
  refine ⟨e', m', ?_, stored, fun key notName notMirror => ?_⟩
  · rw [foldlM_cons, apply, kept]
    exact run
  · have unwritten : key ≠ "sheet_protected" →
        fields.index key = n.currentFields.index key := by
      intro other
      rcases agree key notName with same | mem
      · exact same
      · exact absurd (writes key notName _ _ mem).1 other
    by_cases isContent : key = "content"
    · subst isContent
      rw [final.content, unwritten (by simp)]
    · by_cases isLabel : key = "label"
      · subst isLabel
        rw [final.label, unwritten (by simp)]
      · rw [final.others key isContent isLabel]
        exact foldl_keyStep (fun id w mem => (writes key notName id w mem).2)
          ((agree key notName).imp_right fun mem => ⟨n.id, mem⟩)

theorem created_fields (object : n.currentFields.isObject)
    (waits : ∀ w ∈ waiting, nameLater held n = some w) (nodeType : NodeType) (name : Option String)
    (e : Entry) : ∃ e' m', (phased source (.nodeCreated n.id nodeType n.parentId n.pos
        (createdFields n waiting.isSome) name :: (waiting.map edit).toList)).foldlM
        (apply env) e = .ok e' ∧ e'.node = some m' ∧
      ∀ key, key ≠ "var_name" → key ≠ "varName" →
        m'.currentFields.index key = n.currentFields.index key := by
  obtain ⟨isObject, reads⟩ := createdFields_spec object waiting.isSome
  rw [phased_waiting waits]
  rcases pieces_cases source (.nodeCreated n.id nodeType n.parentId n.pos
    (createdFields n waiting.isSome) name) with ⟨_, _, other, -⟩ |
    ⟨_, _, _, _, fields, _, same, locked, pieces⟩ | pieces
  · cases other
  · cases same
    obtain ⟨unlocked, assigned⟩ :=
      setIndex_isSome (.inl isObject) "sheet_protected" (.bool false)
    rw [pieces, assigned, Option.getD_some]
    have target : n.currentFields.index "sheet_protected" = .bool true := by
      rw [← locked, reads _ (by simp)]
    refine create_then_edit (setIndex_spec assigned).1 (fun op mem => ?_)
      (fun key notName => ?_) nodeType name e
    · rcases mem_append.1 mem with mem | mem
      · exact .inl (shellOp_waiting waits mem)
      · rw [target]
        exact .inr (mem_singleton.1 mem)
    · rw [index_setIndex assigned, ← reads key notName]
      by_cases protection : key = "sheet_protected"
      · subst protection
        rw [locked]
        exact .inr (by simp)
      · exact .inl (if_neg protection)
  · rw [pieces]
    simp only [nil_append, append_nil, singleton_append]
    exact create_then_edit isObject (fun op mem => .inl (shellOp_waiting waits mem))
      (fun key notName => .inl (reads key notName)) nodeType name e

end Update

end Dynodoc.Diff
