import Dynodoc.Document.State

/-! The JSON form of events, and the choice between a whole field and a patch. -/
namespace Dynodoc
open RichText

/-- A member that is left out when there is nothing to write. -/
def optionalMember (key : String) : Option String → List (String × Value)
  | none => []
  | some s => [(key, .str s)]

def natValue (n : Nat) : Value := .num (.int n)

def RichText.TextOp.toJson : TextOp → Value
  | .retain count style =>
    .fields ([("kind", .str "retain"), ("count", natValue count)] ++
      match style with
      | none => []
      | some style => [("style", natValue style)])
  | .delete count => .fields [("kind", .str "delete"), ("count", natValue count)]
  | .insert text style =>
    .fields [("kind", .str "insert"), ("text", .str text), ("style", natValue style)]

def RichText.RichTextEdit.toJson : RichTextEdit → Value
  | .text path ops =>
    .fields [("kind", .str "text"), ("path", .array (path.map natValue)),
      ("ops", .array (ops.map TextOp.toJson))]
  | .props path value =>
    .fields [("kind", .str "props"), ("path", .array (path.map natValue)), ("value", value)]
  | .replace path value =>
    .fields [("kind", .str "replace"), ("path", .array (path.map natValue)), ("value", value)]

def RichText.RichTextPatch.toJson (p : RichTextPatch) : Value :=
  .fields [("version", natValue p.version), ("before", .str p.before), ("after", .str p.after),
    ("styles", .array p.styles), ("edits", .array (p.edits.map RichTextEdit.toJson))]

def EventPayload.toJson : EventPayload → Value
  | nodeCreated id nodeType parentId pos fields varName =>
    .fields ([("type", .str "NodeCreated"), ("node_id", .str id), ("node_type", .str nodeType.asStr),
      ("pos", .str pos), ("fields", fields)] ++
      optionalMember "parent_id" parentId ++ optionalMember "var_name" varName)
  | nodeMoved id parentId pos =>
    .fields ([("type", .str "NodeMoved"), ("node_id", .str id), ("new_pos", .str pos)] ++
      optionalMember "new_parent_id" parentId)
  | nodeDeleted id => .fields [("type", .str "NodeDeleted"), ("node_id", .str id)]
  | nodeRestored id => .fields [("type", .str "NodeRestored"), ("node_id", .str id)]
  | fieldEdited id field value =>
    .fields [("type", .str "FieldEdited"), ("node_id", .str id), ("field", .str field),
      ("value", value)]
  | richTextPatched id patch =>
    .fields [("type", .str "RichTextPatched"), ("node_id", .str id), ("patch", patch.toJson)]
  | choiceAdded id choiceId fields =>
    .fields [("type", .str "ChoiceAdded"), ("node_id", .str id), ("choice_id", .str choiceId),
      ("fields", fields)]
  | choiceRemoved id choiceId =>
    .fields [("type", .str "ChoiceRemoved"), ("node_id", .str id), ("choice_id", .str choiceId)]
  | commentAdded id body =>
    .fields ([("type", .str "CommentAdded"), ("body", .str body)] ++ optionalMember "node_id" id)
  | commentReplied threadId body =>
    .fields [("type", .str "CommentReplied"), ("thread_id", .str threadId), ("body", .str body)]
  | commentResolved threadId resolved =>
    .fields [("type", .str "CommentResolved"), ("thread_id", .str threadId),
      ("resolved", .bool resolved)]
  | suggestionProposed key target detail =>
    .fields ([("type", .str "SuggestionProposed"), ("suggestion_id", .str key),
      ("detail", detail)] ++ optionalMember "target_node_id" target)
  | suggestionAccepted key =>
    .fields [("type", .str "SuggestionAccepted"), ("suggestion_id", .str key)]
  | suggestionRejected key reason =>
    .fields ([("type", .str "SuggestionRejected"), ("suggestion_id", .str key)] ++
      optionalMember "reason" reason)
  | deployed snapshotId =>
    .fields ([("type", .str "Deployed")] ++ optionalMember "snapshot_id" snapshotId)

/-- The length of an event's JSON text. The order of the members does not change
it, so it is taken of the canonical text. -/
def eventBytes (env : Externals) (op : EventPayload) : Nat :=
  (canonicalJson env op.toJson).utf8ByteSize

/-- An edit of a whole content field becomes a patch when that is shorter. -/
def compactEvent (env : Externals) (s : DocumentState) (op : EventPayload) : EventPayload :=
  match op with
  | .fieldEdited id field value =>
    if field = "content" then
      match s.nodes[id]?.bind fun n => n.currentFields.get? field with
      | none => op
      | some before =>
        match makePatch env before value with
        | none => op
        | some patch =>
          if eventBytes env (.richTextPatched id patch) < eventBytes env op then
            .richTextPatched id patch
          else op
    else op
  | _ => op

/-- Compaction keeps the edit, or replaces it by a patch from the content that the
state holds to the edit's value. -/
theorem compactEvent_cases (env : Externals) (s : DocumentState) (id : NodeId) (field : String)
    (value : Value) :
    compactEvent env s (.fieldEdited id field value) = .fieldEdited id field value ∨
    ∃ (n : MaterializedNode) (before : Value) (patch : RichTextPatch), field = "content" ∧
      s.nodes[id]? = some n ∧ n.currentFields.get? "content" = some before ∧
      applyPatch env before patch = .ok value ∧
      compactEvent env s (.fieldEdited id field value) = .richTextPatched id patch := by
  simp only [compactEvent]
  split
  · rename_i isContent
    subst isContent
    split
    · exact .inl rfl
    · rename_i before read
      split
      · exact .inl rfl
      · rename_i patch made
        split
        · obtain ⟨n, found, content⟩ := Option.bind_eq_some_iff.1 read
          exact .inr ⟨n, before, patch, rfl, found, content, applyPatch_of_makePatch made, rfl⟩
        · exact .inl rfl
  · exact .inl rfl

end Dynodoc
