import Dynodoc.Document.Entry
import Dynodoc.Lib.Text

/-! The check that an operation passes before it is written to the log. -/
namespace Dynodoc
open Std (ExtTreeMap ExtTreeSet)
open RichText

variable {n : MaterializedNode} {env : Externals} {name : String} {id : NodeId}

inductive OpError where
  | nodeNotFound (nodeId : NodeId)
  | nodeDeleted (nodeId : NodeId)
  | nodeAlreadyLive (nodeId : NodeId)
  | nodeHasChildren (nodeId : NodeId)
  | nodeExists (nodeId : NodeId)
  | parentNotFound (nodeId : NodeId)
  | illegalContainment (parent child : String)
  | invalidRoot (nodeType : String)
  | duplicateVarName (name : String)
  | moveCreatesCycle (node newParent : NodeId)
  | notChoiceBearing (nodeId : NodeId)
  | choiceNotFound (nodeId : NodeId)
  | suggestionExists (suggestionId : String)
  | suggestionNotFound (suggestionId : String)
  | suggestionNotPending (suggestionId : String)
  | invalidWrappedOp (reason : String)
  | invalidDiscussion (reason : String)
  deriving DecidableEq

def canContain : NodeType → NodeType → Bool
  | .form, .section | .form, .item | .section, .section | .section, .item | .item, .choice
  | .clause, .clause | .clause, .paragraph => true
  | _, _ => false

def isRootType : NodeType → Bool
  | .form | .clause => true
  | _ => false

/-- The stored spelling of an operation's kind. -/
def EventPayload.eventType : EventPayload → String
  | nodeCreated .. => "NodeCreated"
  | nodeMoved .. => "NodeMoved"
  | nodeDeleted _ => "NodeDeleted"
  | nodeRestored _ => "NodeRestored"
  | fieldEdited .. => "FieldEdited"
  | richTextPatched .. => "RichTextPatched"
  | choiceAdded .. => "ChoiceAdded"
  | choiceRemoved .. => "ChoiceRemoved"
  | commentAdded .. => "CommentAdded"
  | commentReplied .. => "CommentReplied"
  | commentResolved .. => "CommentResolved"
  | suggestionProposed .. => "SuggestionProposed"
  | suggestionAccepted _ => "SuggestionAccepted"
  | suggestionRejected .. => "SuggestionRejected"
  | deployed _ => "Deployed"

def isContentOp : EventPayload → Bool
  | .nodeCreated .. | .nodeMoved .. | .nodeDeleted _ | .nodeRestored _ | .fieldEdited ..
  | .choiceAdded .. | .choiceRemoved .. | .commentAdded .. => true
  | _ => false

section Require

variable (s : DocumentState)

def requirePresent (id : NodeId) : Except OpError MaterializedNode :=
  match s.nodes[id]? with
  | some n => .ok n
  | none => .error (.nodeNotFound id)

def requireLive (id : NodeId) : Except OpError MaterializedNode := do
  let n ← requirePresent s id
  if n.deleted ∨ id ∈ s.removedChoices then .error (.nodeDeleted id) else .ok n

def requireNotRemoved (id : NodeId) : Except OpError Unit :=
  if id ∈ s.removedChoices then .error (.nodeDeleted id) else .ok ()

def requireChoiceBearing (n : MaterializedNode) : Except OpError Unit :=
  if parseNodeType n.nodeType = some .item then .ok () else .error (.notChoiceBearing n.id)

def requirePending (suggestionId : String) : Except OpError Unit :=
  match s.suggestions[suggestionId]? with
  | none => .error (.suggestionNotFound suggestionId)
  | some x =>
    if x.accepted ∨ x.rejectedReason.isSome then .error (.suggestionNotPending suggestionId)
    else .ok ()

def varNameTaken (name : String) (exclude : Option NodeId) : Bool :=
  s.nodes.toList.any fun e =>
    !e.2.deleted && decide (some e.2.id ≠ exclude) && decide (e.2.varName = some name)

/-- A name that is not empty must be free. -/
def requireFree (name : String) (exclude : Option NodeId) : Except OpError Unit :=
  if name ≠ "" ∧ varNameTaken s name exclude then .error (.duplicateVarName name) else .ok ()

/-- The walk up from a node; `steps` is what is left of its bound. -/
def reaches (ancestor : NodeId) : Nat → NodeId → Bool
  | 0, _ => false
  | steps + 1, current =>
    match s.nodes[current]? with
    | none => false
    | some n =>
      match n.parentId with
      | none => false
      | some parent => if parent = ancestor then true else reaches ancestor steps parent

def isDescendantOf (candidate ancestor : NodeId) : Bool :=
  reaches s ancestor (s.nodes.size + 1) candidate

def requireContainment (parent child : Option NodeType) : Except OpError Unit :=
  match parent, child with
  | some parent, some child =>
    if canContain parent child then .ok ()
    else .error (.illegalContainment parent.asStr child.asStr)
  | _, _ => .ok ()

def validateNodeCreated (id : NodeId) (nodeType : NodeType) (parentId : Option NodeId)
    (varName : Option String) : Except OpError Unit := do
  if id ∈ s.nodes then .error (.nodeExists id)
  match parentId with
  | some parentId =>
    match s.nodes[parentId]? with
    | none => .error (.parentNotFound parentId)
    | some parent =>
      if parent.deleted then .error (.nodeDeleted parentId)
      requireContainment (parseNodeType parent.nodeType) (some nodeType)
  | none => if isRootType nodeType then .ok () else .error (.invalidRoot nodeType.asStr)
  requireFree s (varName.getD "") none

def validateNodeMoved (id : NodeId) (newParentId : Option NodeId) : Except OpError Unit := do
  requireNotRemoved s id
  let n ← requirePresent s id
  match newParentId with
  | none =>
    if (parseNodeType n.nodeType).any fun t => !isRootType t then .error (.invalidRoot n.nodeType)
    else .ok ()
  | some newParentId =>
    let newParent ← requireLive s newParentId
    requireContainment (parseNodeType newParent.nodeType) (parseNodeType n.nodeType)
    if newParentId = id ∨ isDescendantOf s newParentId id then
      .error (.moveCreatesCycle id newParentId)
    else .ok ()

def validateFieldEdited (id : NodeId) (field : String) (value : Value) : Except OpError Unit := do
  requireNotRemoved s id
  if field = "var_name" ∨ field = "varName" then
    let _ ← requirePresent s id
    match value.asStr with
    | none => .error (.invalidWrappedOp "Variable name must be text")
    | some name => requireFree s name (some id)
  else
    let _ ← requireLive s id
    .ok ()

def validateNodeRestored (id : NodeId) : Except OpError Unit := do
  let n ← requirePresent s id
  if !n.deleted ∧ id ∉ s.removedChoices then .error (.nodeAlreadyLive id)
  match n.parentId with
  | some parent => let _ ← requireLive s parent
  | none => .ok ()
  requireFree s (n.varName.getD "") (some id)

def validateNodeDeleted (id : NodeId) : Except OpError Unit := do
  if s.nodes.toList.any fun e =>
      decide (e.2.parentId = some id) && !e.2.deleted && decide (e.2.id ∉ s.removedChoices) then
    .error (.nodeHasChildren id)
  let n ← requirePresent s id
  if n.deleted then .error (.nodeDeleted id) else .ok ()

def validateChoiceAdded (id choiceId : NodeId) : Except OpError Unit := do
  let parent ← requireLive s id
  requireChoiceBearing parent
  if choiceId ∈ s.nodes then .error (.nodeExists choiceId) else .ok ()

def validateChoiceRemoved (id choiceId : NodeId) : Except OpError Unit := do
  let _ ← requireLive s id
  match s.nodes[choiceId]? with
  | none => .error (.choiceNotFound choiceId)
  | some choice =>
    if choice.parentId ≠ some id then .error (.choiceNotFound choiceId)
    let _ ← requireLive s choiceId
    .ok ()

end Require

def isBlank (text : String) : Bool := text.toList.all Text.isWhitespace

def validateDirect (env : Externals) (s : DocumentState) : EventPayload → Except OpError Unit
  | .richTextPatched id patch => do
    let n ← requireLive s id
    match applyPatch env (n.currentFields.index "content") patch with
    | .ok _ => .ok ()
    | .error e => .error (.invalidWrappedOp (PatchError.text e))
  | .nodeCreated id nodeType parentId _ _ varName =>
    validateNodeCreated s id nodeType parentId varName
  | .fieldEdited id field value => validateFieldEdited s id field value
  | .nodeMoved id newParentId _ => validateNodeMoved s id newParentId
  | .nodeRestored id => validateNodeRestored s id
  | .nodeDeleted id => validateNodeDeleted s id
  | .choiceAdded id choiceId _ => validateChoiceAdded s id choiceId
  | .choiceRemoved id choiceId => validateChoiceRemoved s id choiceId
  | .commentReplied threadId body =>
    if threadId.utf8ByteSize ≠ 26 ∨ isBlank body ∨ body.utf8ByteSize > 10000 then
      .error (.invalidDiscussion "Reply must contain 1–10,000 bytes and a valid thread ID")
    else .ok ()
  | .commentResolved threadId _ =>
    if threadId.utf8ByteSize ≠ 26 then .error (.invalidDiscussion "Invalid thread ID") else .ok ()
  | .commentAdded id body => do
    if isBlank body ∨ body.utf8ByteSize > 10000 then
      .error (.invalidDiscussion "Comment must contain 1–10,000 bytes")
    match id with
    | some id => let _ ← requirePresent s id
    | none => .ok ()
  | .suggestionAccepted suggestionId | .suggestionRejected suggestionId _ =>
    requirePending s suggestionId
  | .suggestionProposed .. | .deployed _ => .ok ()

/-- Reading an operation back from its JSON, with the reader's message when it fails. -/
abbrev Decode := Value → Except String EventPayload

def decodeWrappedOp (decode : Decode) (detail : Value) : Except OpError EventPayload :=
  match decode detail with
  | .error e => .error (.invalidWrappedOp e)
  | .ok op =>
    if isContentOp op then .ok op
    else .error (.invalidWrappedOp (op.eventType ++ " cannot be proposed as a suggestion"))

/-- A proposal wraps a content operation, so the check nests only once. -/
def validateOp (env : Externals) (decode : Decode) (s : DocumentState) :
    EventPayload → Except OpError Unit
  | .suggestionProposed suggestionId _ detail => do
    if suggestionId ∈ s.suggestions then .error (.suggestionExists suggestionId)
    let wrapped ← decodeWrappedOp decode detail
    validateDirect env s wrapped
  | op => validateDirect env s op

section Passes

/-! When an operation passes the check. -/

variable {s : DocumentState}

theorem requirePresent_eq_ok : requirePresent s id = .ok n ↔ s.nodes[id]? = some n := by
  simp only [requirePresent]
  split <;> simp_all

theorem requireLive_eq_ok : requireLive s id = .ok n ↔ s.LiveAt id n := by
  simp only [requireLive, requirePresent, DocumentState.LiveAt]
  cases stored : s.nodes[id]? with
  | none => simp [Bind.bind, Except.bind]
  | some m =>
    simp only [Bind.bind, Except.bind]
    split
    · rename_i gone
      simp only [reduceCtorEq, Option.some.injEq, false_iff]
      rintro ⟨rfl, live, kept⟩
      simp [live, kept] at gone
    · rename_i here
      rw [not_or] at here
      simp only [Except.ok.injEq, Option.some.injEq]
      constructor
      · rintro rfl
        exact ⟨rfl, by simpa using here.1, here.2⟩
      · exact fun live => live.1

/-- No other node that is not deleted has the name. -/
def NameFree (s : DocumentState) (name : String) (exclude : Option NodeId) : Prop :=
  ∀ (id : NodeId) (n : MaterializedNode), s.nodes[id]? = some n → n.deleted = false →
    n.varName = some name → some n.id = exclude

theorem requireFree_ok {exclude : Option NodeId}
    (free : name ≠ "" → NameFree s name exclude) : requireFree s name exclude = .ok () := by
  simp only [requireFree]
  rw [if_neg]
  rintro ⟨used, taken⟩
  simp only [varNameTaken, List.any_eq_true, Bool.and_eq_true, decide_eq_true_eq] at taken
  obtain ⟨⟨id, n⟩, mem, ⟨live, other⟩, named⟩ := taken
  have stored := ExtTreeMap.mem_toList_iff_getElem?_eq_some.1 mem
  exact other (free used id n stored (by simpa using live) named)

/-- What a type may stand under. -/
def MayContain (parent child : String) : Prop :=
  ∀ p c, parseNodeType parent = some p → parseNodeType child = some c → canContain p c

theorem requireContainment_ok {parent child : String} (allowed : MayContain parent child) :
    requireContainment (parseNodeType parent) (parseNodeType child) = .ok () := by
  simp only [requireContainment]
  split
  · rename_i p c parsed parsed'
    rw [if_pos (allowed p c parsed parsed')]
  · rfl

theorem validateNodeCreated_ok {nodeType : NodeType} {parentId : Option NodeId}
    {varName : Option String} (fresh : id ∉ s.nodes)
    (root : parentId = none → isRootType nodeType)
    (inside : ∀ parent, parentId = some parent → ∃ p, s.nodes[parent]? = some p ∧
      p.deleted = false ∧ ∀ t, parseNodeType p.nodeType = some t → canContain t nodeType)
    (free : varName.getD "" ≠ "" → NameFree s (varName.getD "") none) :
    validateNodeCreated s id nodeType parentId varName = .ok () := by
  simp only [validateNodeCreated, if_neg fresh]
  cases parentId with
  | none => simp [root rfl, requireFree_ok free, Bind.bind, Except.bind]
  | some parent =>
    obtain ⟨p, stored, live, allowed⟩ := inside parent rfl
    have contains : requireContainment (parseNodeType p.nodeType) (some nodeType) = .ok () := by
      simp only [requireContainment]
      split
      · rename_i t c parsed same
        cases same
        rw [if_pos (allowed t parsed)]
      · rfl
    simp [stored, live, contains, requireFree_ok free, Bind.bind, Except.bind]

theorem validateNodeRestored_ok (stored : s.nodes[id]? = some n)
    (gone : n.deleted = true ∨ id ∈ s.removedChoices)
    (inside : ∀ parent, n.parentId = some parent → ∃ p, s.LiveAt parent p)
    (free : n.varName.getD "" ≠ "" → NameFree s (n.varName.getD "") (some id)) :
    validateNodeRestored s id = .ok () := by
  have dead : ¬ (n.deleted = false ∧ id ∉ s.removedChoices) := by
    rintro ⟨live, kept⟩
    rcases gone with gone | gone
    · simp [gone] at live
    · exact kept gone
  simp only [validateNodeRestored, requirePresent_eq_ok.2 stored]
  cases place : n.parentId with
  | none => simp [dead, place, requireFree_ok free, Bind.bind, Except.bind]
  | some parent =>
    obtain ⟨p, live⟩ := inside parent place
    simp [dead, place, requireLive_eq_ok.2 live, requireFree_ok free, Bind.bind, Except.bind]

theorem validateNodeDeleted_ok (stored : s.nodes[id]? = some n) (live : n.deleted = false)
    (childless : ∀ (child : NodeId) (m : MaterializedNode), s.nodes[child]? = some m →
      m.parentId = some id → m.deleted = false → m.id ∈ s.removedChoices) :
    validateNodeDeleted s id = .ok () := by
  simpa [validateNodeDeleted, requirePresent_eq_ok.2 stored, live, Bind.bind, Except.bind]
    using childless

end Passes

section Reachable

variable {decode : Decode} {s s' : DocumentState}

/-- Nodes stand under their ids, fields are objects and removed choices exist. -/
structure DocumentState.Regular (s : DocumentState) : Prop where
  keyed : Keyed s.nodes
  objects : ObjectFields s
  listed : ∀ id ∈ s.removedChoices, id ∈ s.nodes

theorem DocumentState.Regular.insert (regular : s.Regular)
    (own : n.id = id) (object : n.currentFields.isObject) :
    { s with nodes := s.nodes.insert id n }.Regular where
  keyed := regular.keyed.insert own
  objects := by
    intro other m stored
    simp only [OrderedMap.getElem?_insert] at stored
    split at stored
    · cases stored
      exact object
    · exact regular.objects other m stored
  listed := fun other mem => by simp [regular.listed other mem]

theorem objectOrValue_isObject (v : Value) : (objectOrValue v).isObject := by
  simp only [objectOrValue]
  split
  · rename_i found
    simp [Json.isObject, found]
  · rfl

/-- The states that checked operations lead to from the empty one. -/
inductive Reachable (env : Externals) (decode : Decode) : DocumentState → Prop where
  | empty : Reachable env decode (.ofNodes [])
  | step {s s' : DocumentState} {op : EventPayload} (before : Reachable env decode s)
      (valid : validateOp env decode s op = .ok ()) (applied : applyPayload env s op = .ok s') :
      Reachable env decode s'

end Reachable

end Dynodoc
