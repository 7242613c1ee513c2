import Dynodoc.Lib.Forest
import Dynodoc.RichText.Patch

/-! The materialized document state and the semantic operations on it. -/
namespace Dynodoc
open Std (ExtTreeMap ExtTreeSet)
open RichText OrderedMap

abbrev NodeId := String

variable {id : NodeId}

inductive NodeType where
  | form
  | section
  | item
  | choice
  | clause
  | paragraph
  deriving DecidableEq

def NodeType.asStr : NodeType → String
  | form => "form"
  | NodeType.section => "section"
  | item => "item"
  | choice => "choice"
  | clause => "clause"
  | paragraph => "paragraph"

def parseNodeType (raw : String) : Option NodeType :=
  [NodeType.form, .section, .item, .choice, .clause, .paragraph].find? fun t => t.asStr = raw

theorem asStr_of_parseNodeType {raw : String} {t : NodeType} (parsed : parseNodeType raw = some t) :
    t.asStr = raw := by
  simpa using List.find?_some parsed

@[simp] theorem parseNodeType_asStr (t : NodeType) : parseNodeType t.asStr = some t := by
  cases t <;> rfl

structure MaterializedNode where
  id : NodeId
  parentId : Option NodeId
  nodeType : String
  pos : String
  currentFields : Value
  varName : Option String
  deleted : Bool
  deriving DecidableEq

variable {nodes : ExtTreeMap NodeId MaterializedNode} {n : MaterializedNode}

structure CommentState where
  nodeId : Option NodeId
  body : String
  deriving DecidableEq

structure SuggestionState where
  targetNodeId : Option NodeId
  detail : Value
  accepted : Bool
  rejectedReason : Option String
  deriving DecidableEq

structure DocumentState where
  nodes : ExtTreeMap NodeId MaterializedNode
  comments : List CommentState
  suggestions : ExtTreeMap String SuggestionState
  removedChoices : ExtTreeSet NodeId
  deriving DecidableEq

/-- Every node is stored under its own id. -/
def Keyed (nodes : ExtTreeMap NodeId MaterializedNode) : Prop :=
  ∀ (id : NodeId) (n : MaterializedNode), nodes[id]? = some n → n.id = id

theorem Keyed.insert (keyed : Keyed nodes) (own : n.id = id) : Keyed (nodes.insert id n) := by
  intro other m stored
  simp only [getElem?_insert] at stored
  split at stored
  · rename_i same
    cases stored
    exact own.trans same.symm
  · exact keyed other m stored

theorem Keyed.erase (keyed : Keyed nodes) (id : NodeId) : Keyed (nodes.erase id) := by
  intro other m stored
  simp only [getElem?_erase] at stored
  split at stored
  · contradiction
  · exact keyed other m stored

namespace MaterializedNode

def toJson (n : MaterializedNode) : Value :=
  .fields [("id", .str n.id), ("parent_id", .ofOption n.parentId), ("type", .str n.nodeType),
    ("pos", .str n.pos), ("current_fields", n.currentFields), ("var_name", .ofOption n.varName),
    ("deleted", .bool n.deleted)]

/-- An optional text member: absent and null are the same. -/
def optionalText (v : Value) (key : String) : Option (Option String) :=
  match v.get? key with
  | none | some .null => some none
  | some (.str s) => some (some s)
  | some _ => none

def ofJson (v : Value) : Option MaterializedNode := do
  let id ← (v.get? "id").bind Json.asStr
  let parentId ← optionalText v "parent_id"
  let nodeType ← (v.get? "type").bind Json.asStr
  let pos ← (v.get? "pos").bind Json.asStr
  let currentFields ← v.get? "current_fields"
  let varName ← optionalText v "var_name"
  match v.get? "deleted" with
  | some (.bool deleted) => some ⟨id, parentId, nodeType, pos, currentFields, varName, deleted⟩
  | _ => none

@[simp] theorem ofJson_toJson (n : MaterializedNode) : ofJson n.toJson = some n := by
  have text (o : Option String) (v : Value) (key : String)
      (found : v.get? key = some (.ofOption o)) : optionalText v key = some o := by
    cases o <;> simp [optionalText, found, Json.ofOption]
  have parent := text n.parentId n.toJson "parent_id" (by simp [toJson])
  have name := text n.varName n.toJson "var_name" (by simp [toJson])
  simp only [ofJson, parent, name]
  simp [toJson]

theorem toJson_injective {a b : MaterializedNode} (same : a.toJson = b.toJson) : a = b :=
  Option.some.inj (by rw [← ofJson_toJson a, same, ofJson_toJson])

theorem toJson_ne_null (n : MaterializedNode) : n.toJson ≠ .null := by
  intro same
  contradiction

end MaterializedNode

inductive EventPayload where
  | nodeCreated (nodeId : NodeId) (nodeType : NodeType) (parentId : Option NodeId) (pos : String)
      (fields : Value) (varName : Option String)
  | nodeMoved (nodeId : NodeId) (newParentId : Option NodeId) (newPos : String)
  | nodeDeleted (nodeId : NodeId)
  | nodeRestored (nodeId : NodeId)
  | fieldEdited (nodeId : NodeId) (field : String) (value : Value)
  | richTextPatched (nodeId : NodeId) (patch : RichTextPatch)
  | choiceAdded (nodeId choiceId : NodeId) (fields : Value)
  | choiceRemoved (nodeId choiceId : NodeId)
  | commentAdded (nodeId : Option NodeId) (body : String)
  | commentReplied (threadId body : String)
  | commentResolved (threadId : String) (resolved : Bool)
  | suggestionProposed (suggestionId : String) (targetNodeId : Option NodeId) (detail : Value)
  | suggestionAccepted (suggestionId : String)
  | suggestionRejected (suggestionId : String) (reason : Option String)
  | deployed (snapshotId : Option String)
  deriving DecidableEq

def EventPayload.targetNodeId : EventPayload → Option NodeId
  | nodeCreated id .. | nodeMoved id .. | nodeDeleted id | nodeRestored id | fieldEdited id ..
  | richTextPatched id _ | choiceAdded id .. | choiceRemoved id _ => some id
  | commentAdded id _ => id
  | suggestionProposed _ id _ => id
  | suggestionAccepted _ | commentReplied .. | commentResolved .. | suggestionRejected ..
  | deployed _ => none

inductive ApplyError where
  | richText (reason : String)
  | missingNode (nodeId : NodeId)
  | nonObjectFields (nodeId : NodeId)
  | missingSuggestion (suggestionId : String)
  deriving DecidableEq

def objectOrValue (v : Value) : Value :=
  match v.asObject with
  | some _ => v
  | none => .fields [("value", v)]

def ObjectFields (s : DocumentState) : Prop :=
  ∀ (id : NodeId) (n : MaterializedNode), s.nodes[id]? = some n → n.currentFields.isObject

namespace DocumentState

variable {nodes : List MaterializedNode}

/-- A state of nodes stored under their ids, and nothing else. -/
def ofNodes (nodes : List MaterializedNode) : DocumentState :=
  ⟨nodes.foldr (fun n rest => rest.insert n.id n) ∅, [], ∅, ∅⟩

theorem mem_ofNodes : id ∈ (ofNodes nodes).nodes ↔ ∃ n ∈ nodes, n.id = id := by
  simp only [ofNodes]
  induction nodes with
  | nil => simp
  | cons n nodes ih => simp [ih]

theorem mem_of_getElem?_ofNodes (stored : (ofNodes nodes).nodes[id]? = some n) : n ∈ nodes := by
  simp only [ofNodes] at stored
  induction nodes with
  | nil => simp at stored
  | cons m nodes ih =>
    simp only [List.foldr_cons, getElem?_insert] at stored
    split at stored
    · cases stored
      simp
    · simp [ih stored]

theorem keyed_ofNodes (nodes : List MaterializedNode) : Keyed (ofNodes nodes).nodes := by
  induction nodes with
  | nil => simp [Keyed, ofNodes]
  | cons n nodes ih => exact ih.insert rfl

theorem objectFields_ofNodes
    (objects : ∀ n ∈ nodes, n.currentFields.isObject) : ObjectFields (ofNodes nodes) :=
  fun _ _ stored => objects _ (mem_of_getElem?_ofNodes stored)

def parentOf (s : DocumentState) (id : NodeId) : Option NodeId :=
  s.nodes[id]?.bind MaterializedNode.parentId

def Acyclic (s : DocumentState) : Prop :=
  ∀ id, ¬ Relation.TransGen (fun child parent => s.parentOf child = some parent) id id

/-- A node of the document that is neither deleted nor a removed choice. -/
def LiveAt (s : DocumentState) (id : NodeId) (n : MaterializedNode) : Prop :=
  s.nodes[id]? = some n ∧ n.deleted = false ∧ id ∉ s.removedChoices

instance (s : DocumentState) (id : NodeId) (n : MaterializedNode) : Decidable (s.LiveAt id n) :=
  inferInstanceAs (Decidable (_ ∧ _ ∧ _))

/-- Replace the node stored under a key, which must be there. -/
def updateNode (s : DocumentState) (key : NodeId)
    (f : MaterializedNode → Except ApplyError MaterializedNode) :
    Except ApplyError DocumentState :=
  match s.nodes[key]? with
  | none => .error (.missingNode key)
  | some n => (f n).map fun n => { s with nodes := s.nodes.insert key n }

def updateSuggestion (s : DocumentState) (key : String) (f : SuggestionState → SuggestionState) :
    Except ApplyError DocumentState :=
  match s.suggestions[key]? with
  | none => .error (.missingSuggestion key)
  | some n => .ok { s with suggestions := s.suggestions.insert key (f n) }

end DocumentState

def patchNode (env : Externals) (patch : RichTextPatch) (n : MaterializedNode) (key : NodeId) :
    Except ApplyError MaterializedNode :=
  match applyPatch env (n.currentFields.index "content") patch with
  | .error e => .error (.richText (PatchError.text e))
  | .ok content =>
    match n.currentFields.asObject with
    | none => .error (.nonObjectFields key)
    | some fields =>
      let fields := (fields.insert "label" (.str (plainText content))).insert "content" content
      .ok { n with currentFields := .object fields }

def editNode (field : String) (value : Value) (n : MaterializedNode) (key : NodeId) :
    Except ApplyError MaterializedNode :=
  match n.currentFields.asObject with
  | none => .error (.nonObjectFields key)
  | some fields =>
    let n := { n with currentFields := .object (fields.insert field value) }
    .ok (if field = "var_name" ∨ field = "varName" then { n with varName := value.asStr } else n)

def applyPayload (env : Externals) (s : DocumentState) :
    EventPayload → Except ApplyError DocumentState
  | .richTextPatched id patch => s.updateNode id fun n => patchNode env patch n id
  | .nodeCreated id nodeType parentId pos fields varName =>
    let n := ⟨id, parentId, nodeType.asStr, pos, objectOrValue fields, varName, false⟩
    .ok { s with nodes := s.nodes.insert id n }
  | .fieldEdited id field value => s.updateNode id fun n => editNode field value n id
  | .nodeMoved id parentId pos =>
    s.updateNode id fun n => .ok { n with parentId := parentId, pos := pos }
  | .nodeRestored id => do
    let s ← s.updateNode id fun n => .ok { n with deleted := false }
    .ok { s with removedChoices := s.removedChoices.erase id }
  | .nodeDeleted id => s.updateNode id fun n => .ok { n with deleted := true }
  | .choiceAdded id choiceId fields =>
    let n := ⟨choiceId, some id, "choice", choiceId, objectOrValue fields, none, false⟩
    .ok { s with
      nodes := s.nodes.insertIfNew choiceId n
      removedChoices := s.removedChoices.erase choiceId }
  | .choiceRemoved _ choiceId =>
    .ok { s with removedChoices := s.removedChoices.insert choiceId }
  -- Threads are projected from the log; they leave the state alone.
  | .commentReplied .. | .commentResolved .. | .deployed _ => .ok s
  | .commentAdded id body => .ok { s with comments := s.comments ++ [⟨id, body⟩] }
  | .suggestionProposed key target detail =>
    .ok { s with suggestions := s.suggestions.insert key ⟨target, detail, false, none⟩ }
  | .suggestionAccepted key =>
    s.updateSuggestion key fun x => { x with accepted := true, rejectedReason := none }
  | .suggestionRejected key reason =>
    s.updateSuggestion key fun x =>
      { x with accepted := false, rejectedReason := some (reason.getD "rejected") }

def applyAll (env : Externals) (s : DocumentState) (ops : List EventPayload) :
    Except ApplyError DocumentState :=
  ops.foldlM (applyPayload env) s

end Dynodoc
