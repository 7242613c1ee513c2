import Dynodoc.Document.Ops

/-! Runs of checked operations: what one operation that passes the check can change, and
what holds of every state that such operations lead to. -/
namespace Dynodoc
open Std (ExtTreeMap ExtTreeSet)
open RichText DocumentState OrderedMap Forest Option Std.ExtTreeSet Loop

variable {s s' : DocumentState} {op : EventPayload} {ops : List EventPayload}
  {id choiceId parent key ancestor : NodeId} {env : Externals} {decode : Decode}
  {fields : ExtTreeMap String Value} {n p : MaterializedNode} {field : String} {value : Value}

/-! What an operation that passes the check has shown. -/

theorem of_requireFree {name : String} {exclude : Option NodeId}
    (passed : requireFree s name exclude = .ok ()) (used : name ≠ "") :
    NameFree s name exclude := by
  intro id n stored live named
  by_contra other
  simp only [requireFree] at passed
  rw [if_pos] at passed
  · contradiction
  refine ⟨used, List.any_eq_true.2 ⟨(id, n), ?_, ?_⟩⟩
  · exact ExtTreeMap.mem_toList_iff_getElem?_eq_some.2 stored
  · simp [live, other, named]

theorem of_requireContainment {parent child : Option NodeType}
    (passed : requireContainment parent child = .ok ()) :
    ∀ p c, parent = some p → child = some c → canContain p c := by
  rintro p c rfl rfl
  simp only [requireContainment] at passed
  split at passed
  · rename_i allowed
    exact allowed
  · contradiction

theorem of_validateNodeCreated {nodeType : NodeType} {parentId : Option NodeId}
    {varName : Option String} (passed : validateNodeCreated s id nodeType parentId varName = .ok ()) :
    id ∉ s.nodes ∧ (∀ parent, parentId = some parent → ∃ p, s.nodes[parent]? = some p ∧
      p.deleted = false ∧ ∀ t, parseNodeType p.nodeType = some t → canContain t nodeType) ∧
    (varName.getD "" ≠ "" → NameFree s (varName.getD "") none) := by
  obtain ⟨fresh, passed⟩ := guard_eq_ok.1 passed
  cases parentId with
  | none =>
    simp only at passed
    split at passed
    · exact ⟨fresh, by simp, of_requireFree passed⟩
    · contradiction
  | some parent =>
    simp only at passed
    split at passed
    · contradiction
    rename_i p stored
    obtain ⟨live, passed⟩ := guard_eq_ok.1 passed
    obtain ⟨⟨⟩, contained, passed⟩ := bind_eq_ok.1 passed
    refine ⟨fresh, ?_, of_requireFree passed⟩
    rintro _ ⟨⟩
    refine ⟨p, stored, by simpa using live, fun t parsed => ?_⟩
    exact of_requireContainment contained t nodeType parsed rfl

theorem of_validateNodeMoved {newParentId : Option NodeId}
    (passed : validateNodeMoved s id newParentId = .ok ()) :
    ∃ n, s.nodes[id]? = some n ∧ ∀ parent, newParentId = some parent → ∃ p, s.LiveAt parent p ∧
      MayContain p.nodeType n.nodeType ∧ parent ≠ id ∧ isDescendantOf s parent id = false := by
  obtain ⟨-, -, passed⟩ := bind_eq_ok.1 passed
  obtain ⟨n, stored, passed⟩ := bind_eq_ok.1 passed
  refine ⟨n, requirePresent_eq_ok.1 stored, ?_⟩
  rintro parent rfl
  obtain ⟨p, live, passed⟩ := bind_eq_ok.1 passed
  obtain ⟨⟨⟩, contained, passed⟩ := bind_eq_ok.1 passed
  obtain ⟨outside, passed⟩ := guard_eq_ok.1 passed
  rw [not_or] at outside
  exact ⟨p, requireLive_eq_ok.1 live, fun t c => of_requireContainment contained t c, outside.1,
    by simpa using outside.2⟩

theorem of_validateFieldEdited (passed : validateFieldEdited s id field value = .ok ()) :
    (∃ n, s.nodes[id]? = some n) ∧ (field = "var_name" ∨ field = "varName" →
      ∃ name, value.asStr = some name ∧ (name ≠ "" → NameFree s name (some id))) := by
  obtain ⟨-, -, passed⟩ := bind_eq_ok.1 passed
  split at passed
  · obtain ⟨n, stored, passed⟩ := bind_eq_ok.1 passed
    refine ⟨⟨n, requirePresent_eq_ok.1 stored⟩, fun _ => ?_⟩
    split at passed
    · contradiction
    rename_i name text
    exact ⟨name, text, of_requireFree passed⟩
  · rename_i other
    obtain ⟨n, live, -⟩ := bind_eq_ok.1 passed
    exact ⟨⟨n, (requireLive_eq_ok.1 live).1⟩, fun isName => absurd isName other⟩

theorem of_validateNodeRestored (passed : validateNodeRestored s id = .ok ()) :
    ∃ n, s.nodes[id]? = some n ∧ (∀ parent, n.parentId = some parent → ∃ p, s.LiveAt parent p) ∧
      (n.varName.getD "" ≠ "" → NameFree s (n.varName.getD "") (some id)) := by
  obtain ⟨n, stored, passed⟩ := bind_eq_ok.1 passed
  refine ⟨n, requirePresent_eq_ok.1 stored, ?_⟩
  obtain ⟨-, passed⟩ := guard_eq_ok.1 passed
  split at passed
  · rename_i parent inside
    obtain ⟨p, live, passed⟩ := bind_eq_ok.1 passed
    refine ⟨fun other same => ?_, of_requireFree passed⟩
    rw [inside] at same
    cases same
    exact ⟨p, requireLive_eq_ok.1 live⟩
  · rename_i top
    exact ⟨by simp [top], of_requireFree passed⟩

theorem of_validateNodeDeleted (passed : validateNodeDeleted s id = .ok ()) :
    ∃ n, s.nodes[id]? = some n ∧ ∀ (child : NodeId) (m : MaterializedNode),
      s.nodes[child]? = some m → m.parentId = some id → m.deleted = false →
      m.id ∈ s.removedChoices := by
  obtain ⟨childless, passed⟩ := guard_eq_ok.1 passed
  obtain ⟨n, stored, -⟩ := bind_eq_ok.1 passed
  refine ⟨n, requirePresent_eq_ok.1 stored, ?_⟩
  simpa using childless

theorem of_validateChoiceAdded (passed : validateChoiceAdded s id choiceId = .ok ()) :
    choiceId ∉ s.nodes ∧ ∃ p, s.LiveAt id p ∧ parseNodeType p.nodeType = some .item := by
  obtain ⟨p, live, passed⟩ := bind_eq_ok.1 passed
  obtain ⟨⟨⟩, bearing, passed⟩ := bind_eq_ok.1 passed
  simp only [requireChoiceBearing] at bearing
  obtain ⟨fresh, passed⟩ := guard_eq_ok.1 passed
  split at bearing
  · rename_i item
    exact ⟨fresh, p, requireLive_eq_ok.1 live, item⟩
  · contradiction

theorem of_validateChoiceRemoved (passed : validateChoiceRemoved s id choiceId = .ok ()) :
    ∃ n, s.nodes[choiceId]? = some n ∧ n.parentId = some id := by
  obtain ⟨-, -, passed⟩ := bind_eq_ok.1 passed
  split at passed
  · contradiction
  rename_i n stored
  obtain ⟨inside, passed⟩ := guard_eq_ok.1 passed
  exact ⟨n, stored, not_not.1 inside⟩

theorem of_requirePending {suggestionId : String}
    (passed : requirePending s suggestionId = .ok ()) : ∃ x, s.suggestions[suggestionId]? = some x := by
  simp only [requirePending] at passed
  split at passed
  · contradiction
  rename_i x stored
  exact ⟨x, stored⟩

/-- What an operation that passes the check can do to the nodes. -/
inductive Change (s s' : DocumentState) : EventPayload → Prop where
  | same {op : EventPayload} (nodes : s'.nodes = s.nodes)
      (removed : s'.removedChoices = s.removedChoices) : Change s s' op
  | created {op : EventPayload} {id : NodeId} {n : MaterializedNode} (fresh : id ∉ s.nodes)
      (nodes : s'.nodes = s.nodes.insert id n) (removed : s'.removedChoices = s.removedChoices)
      (own : n.id = id) (object : n.currentFields.isObject) (typed : (parseNodeType n.nodeType).isSome)
      (inside : ∀ parent, n.parentId = some parent → ∃ p, s.nodes[parent]? = some p ∧
        p.deleted = false ∧ MayContain p.nodeType n.nodeType)
      (free : n.varName.getD "" ≠ "" → NameFree s (n.varName.getD "") none) : Change s s' op
  | moved {op : EventPayload} {id : NodeId} {n : MaterializedNode} {newParent : Option NodeId}
      {pos : String} (stored : s.nodes[id]? = some n)
      (nodes : s'.nodes = s.nodes.insert id { n with parentId := newParent, pos := pos })
      (removed : s'.removedChoices = s.removedChoices)
      (inside : ∀ parent, newParent = some parent → ∃ p, s.LiveAt parent p ∧
        MayContain p.nodeType n.nodeType ∧ parent ≠ id ∧ isDescendantOf s parent id = false) :
      Change s s' op
  | edited {op : EventPayload} {id : NodeId} {n : MaterializedNode} {fields : Value}
      {name : Option String} (stored : s.nodes[id]? = some n)
      (nodes : s'.nodes = s.nodes.insert id { n with currentFields := fields, varName := name })
      (removed : s'.removedChoices = s.removedChoices) (object : fields.isObject)
      (named : name = n.varName ∨ (name.getD "" ≠ "" → NameFree s (name.getD "") (some id))) :
      Change s s' op
  | restored {op : EventPayload} {id : NodeId} {n : MaterializedNode} (stored : s.nodes[id]? = some n)
      (nodes : s'.nodes = s.nodes.insert id { n with deleted := false })
      (removed : s'.removedChoices = s.removedChoices.erase id)
      (inside : ∀ parent, n.parentId = some parent → ∃ p, s.LiveAt parent p)
      (free : n.varName.getD "" ≠ "" → NameFree s (n.varName.getD "") (some id)) : Change s s' op
  | deleted {op : EventPayload} {id : NodeId} {n : MaterializedNode} (stored : s.nodes[id]? = some n)
      (nodes : s'.nodes = s.nodes.insert id { n with deleted := true })
      (removed : s'.removedChoices = s.removedChoices)
      (childless : ∀ (child : NodeId) (m : MaterializedNode), s.nodes[child]? = some m →
        m.parentId = some id → m.deleted = false → m.id ∈ s.removedChoices) : Change s s' op
  | removed {id choiceId : NodeId} {n : MaterializedNode} (stored : s.nodes[choiceId]? = some n)
      (under : n.parentId = some id) (nodes : s'.nodes = s.nodes)
      (removed : s'.removedChoices = s.removedChoices.insert choiceId) :
      Change s s' (.choiceRemoved id choiceId)

theorem updateNode_ok {f : MaterializedNode → Except ApplyError MaterializedNode}
    {m : MaterializedNode} (stored : s.nodes[id]? = some n) (updated : f n = .ok m) :
    s.updateNode id f = .ok { s with nodes := s.nodes.insert id m } := by
  simp [updateNode, stored, updated, Except.map]

theorem updateSuggestion_ok {key : String} {f : SuggestionState → SuggestionState}
    {x : SuggestionState} (stored : s.suggestions[key]? = some x) :
    s.updateSuggestion key f = .ok { s with suggestions := s.suggestions.insert key (f x) } := by
  simp [updateSuggestion, stored]

theorem asObject_of_isObject {v : Value} (object : v.isObject) : ∃ fields, v.asObject = some fields :=
  isSome_iff_exists.1 object

theorem editNode_ok (object : n.currentFields.asObject = some fields) :
    editNode field value n key = .ok { n with
      currentFields := .object (fields.insert field value)
      varName := if field = "var_name" ∨ field = "varName" then value.asStr else n.varName } := by
  simp only [editNode, object]
  split <;> rfl

theorem patchNode_ok {patch : RichTextPatch} {content : Value}
    (applied : applyPatch env (n.currentFields.index "content") patch = .ok content)
    (object : n.currentFields.asObject = some fields) : patchNode env patch n key = .ok { n with
      currentFields := .object
        ((fields.insert "label" (.str (plainText content))).insert "content" content) } := by
  simp [patchNode, applied, object]

theorem isObject_object (fields : ExtTreeMap String Value) : (Json.object fields).isObject := rfl

theorem change_of_valid (regular : s.Regular) (valid : validateOp env decode s op = .ok ()) :
    ∃ s', applyPayload env s op = .ok s' ∧ Change s s' op := by
  cases op with
  | nodeCreated id nodeType parentId pos fields varName =>
    obtain ⟨fresh, inside, free⟩ := of_validateNodeCreated valid
    refine ⟨_, rfl, .created fresh rfl rfl rfl (objectOrValue_isObject fields) ?_ ?_ free⟩
    · simp
    intro parent under
    obtain ⟨p, stored, live, allowed⟩ := inside parent under
    refine ⟨p, stored, live, fun t c parsed parsed' => ?_⟩
    simp only [parseNodeType_asStr, some.injEq] at parsed'
    exact parsed' ▸ allowed t parsed
  | nodeMoved id newParentId newPos =>
    obtain ⟨n, stored, inside⟩ := of_validateNodeMoved valid
    exact ⟨_, updateNode_ok stored rfl, .moved stored rfl rfl inside⟩
  | nodeDeleted id =>
    obtain ⟨n, stored, childless⟩ := of_validateNodeDeleted valid
    exact ⟨_, updateNode_ok stored rfl, .deleted stored rfl rfl childless⟩
  | nodeRestored id =>
    obtain ⟨n, stored, inside, free⟩ := of_validateNodeRestored valid
    refine ⟨{ s with
      nodes := s.nodes.insert id { n with deleted := false }
      removedChoices := s.removedChoices.erase id }, ?_, .restored stored rfl rfl inside free⟩
    have updated : (s.updateNode id fun n => .ok { n with deleted := false }) = .ok _ :=
      updateNode_ok stored rfl
    simp [applyPayload, updated, Bind.bind, Except.bind]
  | fieldEdited id field value =>
    obtain ⟨⟨n, stored⟩, named⟩ := of_validateFieldEdited valid
    obtain ⟨fields, object⟩ := asObject_of_isObject (regular.objects id n stored)
    refine ⟨_, updateNode_ok stored (editNode_ok object), ?_⟩
    refine .edited stored rfl rfl (isObject_object _) ?_
    by_cases isName : field = "var_name" ∨ field = "varName"
    · obtain ⟨name, text, free⟩ := named isName
      rw [if_pos isName, text]
      exact .inr free
    · rw [if_neg isName]
      exact .inl rfl
  | richTextPatched id patch =>
    obtain ⟨n, live, passed⟩ := bind_eq_ok.1 valid
    have stored := (requireLive_eq_ok.1 live).1
    obtain ⟨fields, object⟩ := asObject_of_isObject (regular.objects id n stored)
    split at passed
    · rename_i content applied
      refine ⟨_, updateNode_ok stored (patchNode_ok applied object), ?_⟩
      exact .edited stored rfl rfl (isObject_object _) (.inl rfl)
    · contradiction
  | choiceAdded id choiceId fields =>
    obtain ⟨fresh, p, live, item⟩ := of_validateChoiceAdded valid
    refine ⟨_, rfl, @Change.created s _ _ choiceId ⟨choiceId, some id, "choice", choiceId,
      objectOrValue fields, none, false⟩ fresh ?_ ?_ rfl (objectOrValue_isObject fields) rfl ?_
      (by simp)⟩
    · apply ExtTreeMap.ext_getElem?
      intro other
      simp [getElem?_insertIfNew, getElem?_eq_none_iff.2 fresh]
    · apply ext_mem
      intro other
      simp only [mem_erase, and_iff_right_iff_imp]
      intro mem same
      rw [Std.compare_eq_iff_eq] at same
      exact fresh (same ▸ regular.listed other mem)
    · rintro parent ⟨⟩
      refine ⟨p, live.1, live.2.1, fun t c parsed parsed' => ?_⟩
      rw [item] at parsed
      cases parsed
      cases parsed'
      rfl
  | choiceRemoved id choiceId =>
    obtain ⟨n, stored, under⟩ := of_validateChoiceRemoved valid
    exact ⟨_, rfl, .removed stored under rfl rfl⟩
  | suggestionAccepted key =>
    obtain ⟨x, stored⟩ := of_requirePending valid
    exact ⟨_, updateSuggestion_ok stored, .same rfl rfl⟩
  | suggestionRejected key reason =>
    obtain ⟨x, stored⟩ := of_requirePending valid
    exact ⟨_, updateSuggestion_ok stored, .same rfl rfl⟩
  | _ => exact ⟨_, rfl, .same rfl rfl⟩

theorem reaches_of_chain {steps : Nat} {current : NodeId} {path : List NodeId}
    (chain : Forest.Chain s.parentOf (current :: path) (some ancestor))
    (enough : path.length < steps) : reaches s ancestor steps current = true := by
  induction path generalizing current steps with
  | nil =>
    obtain ⟨steps, rfl⟩ : ∃ k, steps = k + 1 := ⟨steps - 1, by omega⟩
    obtain ⟨n, stored, under⟩ := bind_eq_some_iff.1 chain
    simp [reaches, stored, under]
  | cons parent path ih =>
    obtain ⟨steps, rfl⟩ : ∃ k, steps = k + 1 := ⟨steps - 1, by omega⟩
    obtain ⟨n, stored, under⟩ := bind_eq_some_iff.1 chain.1
    simp only [reaches, stored, under]
    split
    · rfl
    · exact ih chain.2 (by simpa using enough)

theorem below_of_reaches {steps : Nat} {current : NodeId}
    (found : reaches s ancestor steps current = true) :
    Relation.TransGen (fun child parent => s.parentOf child = some parent) current ancestor := by
  induction steps generalizing current with
  | zero => contradiction
  | succ steps ih =>
    rw [reaches] at found
    split at found
    · contradiction
    rename_i n stored
    split at found
    · contradiction
    rename_i parent under
    have step : s.parentOf current = some parent := by simp [parentOf, stored, under]
    split at found
    · rename_i same
      exact .single (same ▸ step)
    · exact .head step (ih found)

/-- The bound on the walk is more than the number of nodes, so the walk misses no ancestor,
also where the parents form a cycle. -/
theorem isDescendantOf_iff : isDescendantOf s id ancestor = true ↔
    Relation.TransGen (fun child parent => s.parentOf child = some parent) id ancestor := by
  refine ⟨below_of_reaches, fun below => ?_⟩
  obtain ⟨path, chain, distinct⟩ := Forest.exists_chain below
  have within : ∀ x ∈ id :: path, x ∈ s.nodes := by
    intro x mem
    obtain ⟨parent, step, -⟩ := Relation.TransGen.head'_iff.1 (chain.below x mem)
    obtain ⟨n, stored, -⟩ := bind_eq_some_iff.1 step
    exact mem_iff_exists.2 ⟨n, stored⟩
  have few := length_le_size distinct within
  rw [List.length_cons] at few
  exact reaches_of_chain chain (by omega)

/-- What the check keeps: a regular state whose parents exist, without a cycle, in which no
two nodes that are not deleted share a name. -/
structure DocumentState.Sound (s : DocumentState) : Prop extends s.Regular where
  parents : ∀ id parent, s.parentOf id = some parent → parent ∈ s.nodes
  grounded : ∀ id, Forest.Grounded s.parentOf id
  names : ∀ (id : NodeId) (n : MaterializedNode) (name : String), s.nodes[id]? = some n →
    n.deleted = false → n.varName = some name → name ≠ "" → NameFree s name (some id)

namespace DocumentState

variable {m : MaterializedNode}

theorem sound_empty : (ofNodes []).Sound where
  keyed := keyed_ofNodes []
  objects := objectFields_ofNodes (by simp)
  listed := by simp [ofNodes]
  parents := by simp [parentOf, ofNodes]
  grounded := fun id => .root (by simp [parentOf, ofNodes])
  names := by simp [ofNodes]

theorem parentOf_insert (nodes : s'.nodes = s.nodes.insert id n) :
    s'.parentOf = Function.update s.parentOf id n.parentId := by
  funext other
  by_cases same : other = id
  · subst same
    simp [parentOf, nodes]
  · simp [parentOf, nodes, same]

theorem Sound.congr (sound : s.Sound) (nodes : s'.nodes = s.nodes)
    (listed : ∀ id ∈ s'.removedChoices, id ∈ s.nodes) : s'.Sound where
  keyed := nodes ▸ sound.keyed
  objects := by
    rw [ObjectFields, nodes]
    exact sound.objects
  listed := nodes ▸ listed
  parents := by
    simp only [parentOf, nodes]
    exact sound.parents
  grounded := by
    have same : s'.parentOf = s.parentOf := by
      funext other
      simp [parentOf, nodes]
    exact same ▸ sound.grounded
  names := by
    simp only [NameFree, nodes]
    exact sound.names

theorem Sound.above (sound : s.Sound) (stored : s.nodes[id]? = some n) {parent : NodeId}
    (under : n.parentId = some parent) : parent ∈ s.nodes ∧
      ¬ Relation.ReflTransGen (fun child parent => s.parentOf child = some parent) parent id := by
  have step : s.parentOf id = some parent := by simp [parentOf, stored, under]
  exact ⟨sound.parents id parent step, fun below =>
    not_transGen_self sound.grounded id (.head' step below)⟩

/-- A node may be written under its id if its parent exists and does not lie below it, and
no other node has its name. -/
theorem Sound.write (sound : s.Sound) (nodes : s'.nodes = s.nodes.insert id n)
    (listed : ∀ other ∈ s'.removedChoices, other ∈ s.nodes) (own : n.id = id)
    (object : n.currentFields.isObject)
    (inside : ∀ parent, n.parentId = some parent → parent ∈ s.nodes ∧
      ¬ Relation.ReflTransGen (fun child parent => s.parentOf child = some parent) parent id)
    (free : n.deleted = false → ∀ name, n.varName = some name → name ≠ "" →
      NameFree s name (some id)) : s'.Sound where
  keyed := nodes ▸ sound.keyed.insert own
  objects := by
    intro other m stored
    exact (sound.toRegular.insert own object).objects other m (nodes ▸ stored)
  listed := by
    intro other mem
    simp [nodes, listed other mem]
  parents := by
    intro other parent step
    rw [parentOf_insert nodes, Function.update_apply] at step
    split at step
    · simp [nodes, (inside parent step).1]
    · simp [nodes, sound.parents other parent step]
  grounded := by
    rw [parentOf_insert nodes]
    exact grounded_update sound.grounded fun parent under => (inside parent under).2
  names := by
    intro other m name stored live named used other' m' stored' live' named'
    simp only [nodes, getElem?_insert] at stored stored'
    split at stored <;> split at stored'
    · rename_i same same'
      cases stored
      cases stored'
      rw [own, same]
    · rename_i same different
      cases stored
      rw [free live name named used other' m' stored' live' named', same]
    · rename_i different same
      cases stored'
      have holder := free live' name named' used other m stored live named
      rw [sound.keyed other m stored, some.injEq] at holder
      exact absurd holder different
    · exact sound.names other m name stored live named used other' m' stored' live' named'

theorem Sound.change (sound : s.Sound) (change : Change s s' op) : s'.Sound := by
  cases change with
  | same nodes removed => exact sound.congr nodes (removed ▸ sound.listed)
  | created fresh nodes removed own object typed inside free =>
    refine sound.write nodes (removed ▸ sound.listed) own object ?_ ?_
    · intro parent under
      obtain ⟨p, stored, -⟩ := inside parent under
      have known : parent ∈ s.nodes := of_getElem?_eq_some stored
      refine ⟨known, fun below => ?_⟩
      rcases Relation.ReflTransGen.cases_tail below with same | ⟨child, -, step⟩
      · exact fresh (same ▸ known)
      · exact fresh (sound.parents _ _ step)
    · intro live name named used other m stored undeleted taken
      have nobody := free (by simpa [named] using used) other m stored undeleted (by simpa [named])
      simp at nobody
  | moved stored nodes removed inside =>
    have own := sound.keyed _ _ stored
    have object := sound.objects _ _ stored
    refine sound.write nodes (removed ▸ sound.listed) own object ?_ fun live name named used =>
      sound.names _ _ name stored live named used
    intro parent under
    obtain ⟨p, live, -, other, outside⟩ := inside parent under
    refine ⟨?_, fun below => ?_⟩
    · exact mem_iff_exists.2 ⟨_, live.1⟩
    · rcases Relation.reflTransGen_iff_eq_or_transGen.1 below with same | below
      · exact other same.symm
      · exact (Bool.eq_false_iff.1 outside) (isDescendantOf_iff.2 below)
  | edited stored nodes removed object named =>
    have own := sound.keyed _ _ stored
    refine sound.write nodes (removed ▸ sound.listed) own object
      (fun parent under => sound.above stored under) fun live name has used => ?_
    simp only at has
    rcases named with same | free
    · exact sound.names _ _ name stored live (same ▸ has) used
    · simpa [has] using free (by simpa [has] using used)
  | restored stored nodes removed inside free =>
    have own := sound.keyed _ _ stored
    have object := sound.objects _ _ stored
    refine sound.write nodes ?_ own object
      (fun parent under => sound.above stored under) fun live name has used => ?_
    · intro other mem
      rw [removed, mem_erase] at mem
      exact sound.listed other mem.2
    · simp only at has
      simpa [has] using free (by simpa [has] using used)
  | deleted stored nodes removed childless =>
    have own := sound.keyed _ _ stored
    have object := sound.objects _ _ stored
    exact sound.write nodes (removed ▸ sound.listed) own object
      (fun parent under => sound.above stored under) (by simp)
  | removed stored under nodes removed =>
    refine sound.congr nodes fun other mem => ?_
    rw [removed, mem_insert, Std.compare_eq_iff_eq] at mem
    rcases mem with rfl | mem
    · exact of_getElem?_eq_some stored
    · exact sound.listed other mem

end DocumentState

theorem Reachable.sound (reached : Reachable env decode s) : s.Sound := by
  induction reached with
  | empty => exact sound_empty
  | step before valid applied ih =>
    obtain ⟨next, stepped, change⟩ := change_of_valid ih.toRegular valid
    rw [applied] at stepped
    cases stepped
    exact ih.change change

/-- Checked operations never fail, and the states they lead to are well formed. -/
theorem checked_runs_are_sound (env : Externals) (decode : Decode) (s : DocumentState)
    (reached : Reachable env decode s) :
    (∀ op, validateOp env decode s op = .ok () → ∃ s', applyPayload env s op = .ok s') ∧
    ObjectFields s ∧
    (∀ (id : NodeId) (n : MaterializedNode) (parent : NodeId), s.nodes[id]? = some n →
      n.parentId = some parent → parent ∈ s.nodes) ∧
    s.Acyclic ∧
    ∀ (id id' : NodeId) (n n' : MaterializedNode) (name : String), s.nodes[id]? = some n →
      s.nodes[id']? = some n' → n.deleted = false → n'.deleted = false → name ≠ "" →
      n.varName = some name → n'.varName = some name → id = id' := by
  have sound := reached.sound
  refine ⟨fun op valid => ?_, sound.objects, ?_, not_transGen_self sound.grounded, ?_⟩
  · obtain ⟨s', applied, -⟩ := change_of_valid sound.toRegular valid
    exact ⟨s', applied⟩
  · intro id n parent stored under
    exact sound.parents id parent (by simp [parentOf, stored, under])
  · intro id id' n n' name stored stored' live live' used named named'
    have holder := sound.names id' n' name stored' live' named' used id n stored live named
    rw [sound.keyed id n stored, some.injEq] at holder
    exact holder

def applyChecked (env : Externals) (decode : Decode) (s : DocumentState) :
    List EventPayload → Option DocumentState
  | [] => some s
  | op :: ops =>
    if validateOp env decode s op = .ok () then
      (applyPayload env s op).toOption.bind fun s => applyChecked env decode s ops
    else none

theorem of_applyChecked_cons (checked : applyChecked env decode s (op :: ops) = some s') :
    ∃ next, validateOp env decode s op = .ok () ∧ applyPayload env s op = .ok next ∧
      applyChecked env decode next ops = some s' := by
  simp only [applyChecked] at checked
  split at checked
  · rename_i valid
    obtain ⟨next, applied, rest⟩ := bind_eq_some_iff.1 checked
    refine ⟨next, valid, ?_, rest⟩
    cases stepped : applyPayload env s op <;> simp_all [Except.toOption]
  · contradiction

theorem reachable_of_applyChecked
    (start : Reachable env decode s) (checked : applyChecked env decode s ops = some s') :
    Reachable env decode s' := by
  induction ops generalizing s with
  | nil =>
    cases checked
    exact start
  | cons op ops ih =>
    obtain ⟨next, valid, applied, rest⟩ := of_applyChecked_cons checked
    exact ih (.step start valid applied) rest

/-- A form with a section that has an item in it. -/
def sectionForm : List EventPayload :=
  [.nodeCreated "f" .form none "a" (.fields []) none,
    .nodeCreated "s" .section (some "f") "a" (.fields []) none,
    .nodeCreated "i" .item (some "s") "a" (.fields []) (some "v")]

theorem sectionForm_is_sound : ∃ s, Reachable plainExternals (fun _ => .error "") s ∧
    s.nodes.size = 3 ∧ s.Acyclic ∧
    (∃ s', applyPayload plainExternals s (.nodeMoved "i" (some "f") "b") = .ok s') := by
  have run : (applyChecked plainExternals (fun _ => .error "") (.ofNodes []) sectionForm).any
      fun s => s.nodes.size = 3 ∧ validateOp plainExternals (fun _ => .error "") s
        (.nodeMoved "i" (some "f") "b") = .ok () := by
    decide +kernel
  obtain ⟨s, ran, checked⟩ := (any_eq_true _ _).1 run
  obtain ⟨size, valid⟩ := of_decide_eq_true checked
  have reached := reachable_of_applyChecked .empty ran
  obtain ⟨applies, -, -, acyclic, -⟩ := checked_runs_are_sound _ _ s reached
  exact ⟨s, reached, size, acyclic, applies _ valid⟩

/-- What keeps live nodes under live parents: every node may stand where it stands, and
removed choices are choices, under which nothing may stand. -/
structure DocumentState.Anchored (s : DocumentState) : Prop where
  typed : ∀ (id : NodeId) (n : MaterializedNode), s.nodes[id]? = some n →
    (parseNodeType n.nodeType).isSome
  contained : ∀ (id : NodeId) (n : MaterializedNode) (parent : NodeId) (p : MaterializedNode),
    s.nodes[id]? = some n → n.parentId = some parent → s.nodes[parent]? = some p →
    MayContain p.nodeType n.nodeType
  choices : ∀ (id : NodeId) (n : MaterializedNode), id ∈ s.removedChoices → s.nodes[id]? = some n →
    parseNodeType n.nodeType = some .choice
  anchored : ∀ id n parent, s.LiveAt id n → n.parentId = some parent → ∃ p, s.LiveAt parent p

theorem not_mayContain_choice {parent child : String} (choice : parseNodeType parent = some .choice)
    (typed : (parseNodeType child).isSome) : ¬ MayContain parent child := by
  intro allowed
  obtain ⟨t, parsed⟩ := isSome_iff_exists.1 typed
  have contains := allowed .choice t choice parsed
  cases t <;> contradiction

namespace DocumentState

variable {m : MaterializedNode}

theorem anchored_empty : (ofNodes []).Anchored where
  typed := by simp [ofNodes]
  contained := by simp [ofNodes]
  choices := by simp [ofNodes]
  anchored := by simp [LiveAt, ofNodes]

theorem Anchored.same (anchored : s.Anchored) (nodes : s'.nodes = s.nodes)
    (removed : s'.removedChoices = s.removedChoices) : s'.Anchored where
  typed := nodes ▸ anchored.typed
  contained := nodes ▸ anchored.contained
  choices := by
    rw [nodes, removed]
    exact anchored.choices
  anchored := by
    simp only [LiveAt, nodes, removed]
    exact anchored.anchored

theorem Anchored.not_removed (anchored : s.Anchored)
    (stored : s.nodes[parent]? = some p) (typed : (parseNodeType n.nodeType).isSome)
    (allowed : MayContain p.nodeType n.nodeType) : parent ∉ s.removedChoices := by
  intro mem
  exact not_mayContain_choice (anchored.choices parent p mem stored) typed allowed

theorem Anchored.above (anchored : s.Anchored) (sound : s.Sound) (stored : s.nodes[id]? = some n)
    (parent : NodeId) (under : n.parentId = some parent) :
    ∃ p, s.nodes[parent]? = some p ∧ MayContain p.nodeType n.nodeType := by
  obtain ⟨p, known⟩ := mem_iff_exists.1 (sound.above stored under).1
  exact ⟨p, known, anchored.contained id n parent p stored under known⟩

theorem liveAt_insert_of_ne (nodes : s'.nodes = s.nodes.insert id m) {other : NodeId}
    (different : other ≠ id) (removed : other ∈ s'.removedChoices ↔ other ∈ s.removedChoices) :
    s'.LiveAt other n ↔ s.LiveAt other n := by
  simp [LiveAt, nodes, different, removed]

/-- A node may be written under its id if it keeps the type it had there, its parent may contain it
and is live if the node then is, and the node stays live if there are live nodes below it. -/
theorem Anchored.write (anchored : s.Anchored) (sound : s.Sound)
    (nodes : s'.nodes = s.nodes.insert id m)
    (removed : ∀ other ∈ s'.removedChoices, other ∈ s.removedChoices)
    (kept : ∀ other, other ≠ id → other ∈ s.removedChoices → other ∈ s'.removedChoices)
    (type : ∀ n, s.nodes[id]? = some n → n.nodeType = m.nodeType)
    (typed : (parseNodeType m.nodeType).isSome)
    (up : ∀ parent, m.parentId = some parent → ∃ p, s.nodes[parent]? = some p ∧
      MayContain p.nodeType m.nodeType)
    (inside : s'.LiveAt id m → ∀ parent, m.parentId = some parent → ∃ p, s.LiveAt parent p)
    (live : ∀ n child c, s.LiveAt id n → s.LiveAt child c → c.parentId = some id → s'.LiveAt id m) :
    s'.Anchored where
  typed := by
    intro other n stored
    simp only [nodes, getElem?_insert] at stored
    split at stored
    · cases stored
      exact typed
    · exact anchored.typed other n stored
  contained := by
    intro other n parent p stored under above
    have old : ∃ q, s.nodes[parent]? = some q ∧ MayContain q.nodeType n.nodeType := by
      simp only [nodes, getElem?_insert] at stored
      split at stored
      · cases stored
        exact up parent under
      · exact anchored.above sound stored parent under
    obtain ⟨q, known, allowed⟩ := old
    simp only [nodes, getElem?_insert] at above
    split at above
    · rename_i same
      cases above
      exact type q (same ▸ known) ▸ allowed
    · rw [known] at above
      cases above
      exact allowed
  choices := by
    intro other n mem stored
    have before := removed other mem
    obtain ⟨q, known⟩ := mem_iff_exists.1 (sound.listed other before)
    have choice := anchored.choices other q before known
    simp only [nodes, getElem?_insert] at stored
    split at stored
    · rename_i same
      cases stored
      exact type q (same ▸ known) ▸ choice
    · rw [known] at stored
      cases stored
      exact choice
  anchored := by
    have elsewhere {other : NodeId} {n : MaterializedNode} (different : other ≠ id) :
        s'.LiveAt other n ↔ s.LiveAt other n :=
      liveAt_insert_of_ne nodes different ⟨removed other, kept other different⟩
    intro other n parent alive under
    by_cases here : other = id
    · subst here
      obtain rfl : m = n := by simpa [nodes] using alive.1
      obtain ⟨p, above⟩ := inside alive parent under
      by_cases own : parent = other
      · exact ⟨m, own ▸ alive⟩
      · exact ⟨p, (elsewhere own).2 above⟩
    · have before := (elsewhere here).1 alive
      obtain ⟨p, above⟩ := anchored.anchored other n parent before under
      by_cases written : parent = id
      · subst written
        exact ⟨m, live p other n above before under⟩
      · exact ⟨p, (elsewhere written).2 above⟩

/-- A child of an item is a choice, and no node stands under a choice. -/
theorem Anchored.removed (anchored : s.Anchored)
    (stored : s.nodes[id]? = some n) (under : n.parentId = some parent)
    (above : s.nodes[parent]? = some p) (item : parseNodeType p.nodeType = some .item)
    (nodes : s'.nodes = s.nodes) (removed : s'.removedChoices = s.removedChoices.insert id) :
    s'.Anchored := by
  have choice : parseNodeType n.nodeType = some .choice := by
    obtain ⟨t, parsed⟩ := isSome_iff_exists.1 (anchored.typed id n stored)
    have allowed := anchored.contained id n parent p stored under above .item t item parsed
    cases t <;> first | exact parsed | contradiction
  have mem_iff (other : NodeId) :
      other ∈ s'.removedChoices ↔ id = other ∨ other ∈ s.removedChoices := by
    rw [removed, mem_insert, Std.compare_eq_iff_eq]
  refine ⟨nodes ▸ anchored.typed, nodes ▸ anchored.contained, ?_, ?_⟩
  · intro other m mem found
    rw [nodes] at found
    rcases (mem_iff other).1 mem with rfl | mem
    · rw [stored] at found
      cases found
      exact choice
    · exact anchored.choices other m mem found
  · intro other m up live inside
    simp only [LiveAt, nodes, mem_iff, not_or] at live ⊢
    obtain ⟨found, undeleted, different, kept⟩ := live
    obtain ⟨q, found', undeleted', kept'⟩ :=
      anchored.anchored other m up ⟨found, undeleted, kept⟩ inside
    refine ⟨q, found', undeleted', ?_, kept'⟩
    rintro rfl
    rw [stored] at found'
    cases found'
    exact not_mayContain_choice choice (anchored.typed other m found)
      (anchored.contained other m id n found inside stored)

theorem Anchored.change (anchored : s.Anchored) (sound : s.Sound)
    (bearing : ∀ id choiceId, op = .choiceRemoved id choiceId →
      ∃ p, s.nodes[id]? = some p ∧ parseNodeType p.nodeType = some .item)
    (change : Change s s' op) : s'.Anchored := by
  cases change with
  | same nodes removed => exact anchored.same nodes removed
  | created fresh nodes removed own object typed inside free =>
    have absent := getElem?_eq_none_iff.2 fresh
    refine anchored.write sound nodes (by simp [removed]) (by simp [removed])
      (by simp [absent]) typed ?_ ?_ ?_
    · intro parent under
      obtain ⟨p, stored, -, allowed⟩ := inside parent under
      exact ⟨p, stored, allowed⟩
    · intro _ parent under
      obtain ⟨p, stored, undeleted, allowed⟩ := inside parent under
      exact ⟨p, stored, undeleted, anchored.not_removed stored typed allowed⟩
    · rintro n child c ⟨stored, -⟩
      cases absent.symm.trans stored
  | moved stored nodes removed inside =>
    have typed := anchored.typed _ _ stored
    refine anchored.write sound nodes (by simp [removed]) (by simp [removed])
      (by simp [stored]) typed ?_ ?_ ?_
    · intro parent under
      obtain ⟨p, live, allowed, -⟩ := inside parent under
      exact ⟨p, live.1, allowed⟩
    · intro _ parent under
      obtain ⟨p, live, -⟩ := inside parent under
      exact ⟨p, live⟩
    · rintro n child c ⟨stored', undeleted, kept⟩ - -
      cases stored.symm.trans stored'
      exact ⟨by simp [nodes], undeleted, by rwa [removed]⟩
  | edited stored nodes removed object named =>
    have typed := anchored.typed _ _ stored
    have up := anchored.above sound stored
    refine anchored.write sound nodes (by simp [removed]) (by simp [removed])
      (by simp [stored]) typed up ?_ ?_
    · rintro ⟨-, undeleted, kept⟩ parent under
      exact anchored.anchored _ _ parent ⟨stored, undeleted, removed ▸ kept⟩ under
    · rintro n child c ⟨stored', undeleted, kept⟩ - -
      cases stored.symm.trans stored'
      exact ⟨by simp [nodes], undeleted, by rwa [removed]⟩
  | restored stored nodes removed inside free =>
    have typed := anchored.typed _ _ stored
    have up := anchored.above sound stored
    refine anchored.write sound nodes ?_ ?_ (by simp [stored]) typed up
      (fun _ parent under => inside parent under) ?_
    · intro other mem
      rw [removed, mem_erase] at mem
      exact mem.2
    · intro other different mem
      rw [removed, mem_erase]
      exact ⟨fun same => different (Std.compare_eq_iff_eq.1 same).symm, mem⟩
    · intro _ _ _ _ _ _
      exact ⟨by simp [nodes], rfl, by simp [removed]⟩
  | deleted stored nodes removed childless =>
    have typed := anchored.typed _ _ stored
    have up := anchored.above sound stored
    refine anchored.write sound nodes (by simp [removed]) (by simp [removed])
      (by simp [stored]) typed up ?_ ?_
    · rintro ⟨-, undeleted, -⟩
      contradiction
    · intro _ child c _ live under
      have hidden := childless child c live.1 under live.2.1
      rw [sound.keyed child c live.1] at hidden
      exact absurd hidden live.2.2
  | removed stored under nodes removed =>
    obtain ⟨p, above, item⟩ := bearing _ _ rfl
    exact anchored.removed stored under above item nodes removed

end DocumentState

/-- Runs of checked operations in which choices are removed from items only. -/
inductive BearingRun (env : Externals) (decode : Decode) : DocumentState → Prop where
  | empty : BearingRun env decode (.ofNodes [])
  | step {s s' : DocumentState} {op : EventPayload} (before : BearingRun env decode s)
      (valid : validateOp env decode s op = .ok ())
      (bearing : ∀ id choiceId, op = .choiceRemoved id choiceId →
        ∃ p, s.nodes[id]? = some p ∧ parseNodeType p.nodeType = some .item)
      (applied : applyPayload env s op = .ok s') : BearingRun env decode s'

theorem BearingRun.sound_and_anchored (run : BearingRun env decode s) : s.Sound ∧ s.Anchored := by
  induction run with
  | empty => exact ⟨sound_empty, anchored_empty⟩
  | step before valid bearing applied ih =>
    obtain ⟨sound, anchored⟩ := ih
    obtain ⟨next, stepped, change⟩ := change_of_valid sound.toRegular valid
    rw [applied] at stepped
    cases stepped
    exact ⟨sound.change change, anchored.change sound bearing change⟩

/-- In such a run no live node loses its parent. -/
theorem bearing_runs_keep_parents_live (env : Externals) (decode : Decode) (s : DocumentState)
    (run : BearingRun env decode s) (id : NodeId) (n : MaterializedNode) (live : s.LiveAt id n) :
    n.parentId = none ∨ ∃ parent p, n.parentId = some parent ∧ s.LiveAt parent p := by
  cases under : n.parentId with
  | none => exact .inl rfl
  | some parent =>
    obtain ⟨p, above⟩ := run.sound_and_anchored.2.anchored id n parent live under
    exact .inr ⟨parent, p, rfl, above⟩

theorem bearingRun_of_applyChecked
    (start : BearingRun env decode s) (checked : applyChecked env decode s ops = some s')
    (none : ∀ id choiceId, .choiceRemoved id choiceId ∉ ops) : BearingRun env decode s' := by
  induction ops generalizing s with
  | nil =>
    cases checked
    exact start
  | cons op ops ih =>
    obtain ⟨next, valid, applied, rest⟩ := of_applyChecked_cons checked
    refine ih (.step start valid ?_ applied) rest fun id choiceId mem => ?_
    · rintro id choiceId rfl
      exact absurd (List.mem_cons_self ..) (none id choiceId)
    · exact none id choiceId (List.mem_cons_of_mem _ mem)

/-- A choice comes and goes, and the item it was in is still under a live section. -/
theorem removed_choice_orphans_nothing : ∃ s n, BearingRun plainExternals (fun _ => .error "") s ∧
    "c" ∈ s.removedChoices ∧ s.LiveAt "i" n ∧ ∃ p, s.LiveAt "s" p := by
  have run : (applyChecked plainExternals (fun _ => .error "") (.ofNodes [])
      (sectionForm ++ [.choiceAdded "i" "c" (.fields [])])).any fun s =>
        validateOp plainExternals (fun _ => .error "") s (.choiceRemoved "i" "c") = .ok () ∧
        s.nodes["i"]?.any (fun p => parseNodeType p.nodeType = some .item ∧ p.deleted = false ∧
          p.parentId = some "s") ∧ "i" ∉ s.removedChoices := by
    decide +kernel
  obtain ⟨s, ran, checked⟩ := (any_eq_true _ _).1 run
  obtain ⟨valid, found, kept⟩ := of_decide_eq_true checked
  obtain ⟨n, stored, item⟩ := (any_eq_true _ _).1 found
  obtain ⟨item, undeleted, under⟩ := of_decide_eq_true item
  have first := bearingRun_of_applyChecked .empty ran (by simp [sectionForm])
  have last := first.step valid
    (by
      rintro _ _ ⟨⟩
      exact ⟨n, stored, item⟩) rfl
  have live : DocumentState.LiveAt { s with removedChoices := s.removedChoices.insert "c" } "i" n :=
    ⟨stored, undeleted, by simp [kept]⟩
  refine ⟨_, n, last, by simp, live, ?_⟩
  rcases bearing_runs_keep_parents_live _ _ _ last "i" n live with top | ⟨parent, p, inside, above⟩
  · simp [under] at top
  rw [under] at inside
  cases inside
  exact ⟨p, above⟩

/-- The check lets a section be removed like a choice, with a live item in it. -/
theorem removed_section_orphans_item : ∃ s n, Reachable plainExternals (fun _ => .error "") s ∧
    s.LiveAt "i" n ∧ n.parentId = some "s" ∧ ¬ ∃ p, s.LiveAt "s" p := by
  have run : (applyChecked plainExternals (fun _ => .error "") (.ofNodes [])
      (sectionForm ++ [.choiceRemoved "f" "s"])).any fun s => "s" ∈ s.removedChoices ∧
        s.nodes["i"]?.any (fun n => n.deleted = false ∧ n.parentId = some "s") ∧
        "i" ∉ s.removedChoices := by
    decide +kernel
  obtain ⟨s, ran, checked⟩ := (any_eq_true _ _).1 run
  obtain ⟨gone, found, kept⟩ := of_decide_eq_true checked
  obtain ⟨n, stored, node⟩ := (any_eq_true _ _).1 found
  obtain ⟨undeleted, under⟩ := of_decide_eq_true node
  refine ⟨s, n, reachable_of_applyChecked .empty ran, ⟨stored, undeleted, kept⟩, under, ?_⟩
  rintro ⟨p, -, -, live⟩
  exact live gone

end Dynodoc
