import Dynodoc.Document.Ops
import Dynodoc.Integrity.References
import Dynodoc.Lib.DepthFirst

/-! The referential integrity pass that a deployment has to pass. -/
namespace Dynodoc
open Std (ExtTreeMap ExtTreeSet)
open Loop OrderedMap List Settles DepthFirst

variable {name : String} {state : DocumentState} {node n : MaterializedNode}

inductive IntegrityViolation where
  | danglingReference (nodeId : NodeId) (field varName : String)
  | duplicateVarName (varName : String) (nodeIds : List NodeId)
  | relevanceCycle (cycle : List NodeId)
  | invalidExpression (nodeId : NodeId) (field reason : String)
  | typeMismatch (nodeId : NodeId) (field varName expected actual : String)
  | undefinedChoice (nodeId : NodeId) (field varName choice : String)
  deriving DecidableEq

def expressionFields : List String :=
  ["relevance", "constraint", "calculation", "required_expression"]

def nonNumericTypes : List String := ["text", "select_one", "select_multiple"]

def selectTypes : List String := ["select_one", "select_multiple"]

/-- The text of an error; `debug` is how the language shows a character. -/
def Expr.ParseError.message (debug : Char → String) : Expr.ParseError → String
  | limitExceeded resource limit => s!"expression exceeds the {resource} limit ({limit})"
  | unexpectedEof => "unexpected end of input"
  | unexpectedChar ch pos => s!"unexpected character {debug ch} at byte {pos}"
  | expected what pos => s!"expected {what} at byte {pos}"
  | unterminatedString pos => s!"unterminated string literal starting at byte {pos}"
  | unterminatedVarRef pos => s!"unterminated variable reference starting at byte {pos}"
  | trailingInput pos => s!"trailing input at byte {pos}"

namespace Integrity
open Dynodoc.Expr (extractVarRefs)

/-- The nodes that take part. A removed choice is one of them unless it is deleted. -/
def liveNodes (state : DocumentState) : List MaterializedNode :=
  (state.nodes.toList.map Prod.snd).filter fun node => !node.deleted

def definedVar (node : MaterializedNode) : Option String := node.varName.filter (· ≠ "")

def fieldText (node : MaterializedNode) (field : String) : Option String :=
  (node.currentFields.get? field).bind Json.asStr

def define (byVar : ExtTreeMap String (List NodeId)) (node : MaterializedNode) :
    ExtTreeMap String (List NodeId) :=
  match definedVar node with
  | some var => extendAt byVar var [node.id]
  | none => byVar

def definitions (live : List MaterializedNode) : ExtTreeMap String (List NodeId) :=
  live.foldl define ∅

def duplicates (byVar : ExtTreeMap String (List NodeId)) : List IntegrityViolation :=
  (byVar.toList.filter fun (_, ids) => ids.length > 1).map fun (var, ids) =>
    .duplicateVarName var ids

def eachExpression (live : List MaterializedNode)
    (check : MaterializedNode → String → String → List IntegrityViolation) :
    List IntegrityViolation :=
  live.flatMap fun node => expressionFields.flatMap fun field =>
    match fieldText node field with
    | some text => check node field text
    | none => []

def danglingIn (byVar : ExtTreeMap String (List NodeId)) (node : MaterializedNode)
    (field text : String) : List IntegrityViolation :=
  ((extractVarRefs text).filter fun var => var ∉ byVar).map fun var =>
    .danglingReference node.id field var

/-- The nodes that a node's visibility depends on. -/
def targets (byVar : ExtTreeMap String (List NodeId)) (node : MaterializedNode) : List NodeId :=
  match fieldText node "relevance" with
  | some text => (extractVarRefs text).flatMap (gathered byVar)
  | none => []

def adjacencyOf (live : List MaterializedNode) (byVar : ExtTreeMap String (List NodeId)) :
    ExtTreeMap NodeId (List NodeId) :=
  live.foldl (fun adjacency node => adjacency.insert node.id (targets byVar node)) ∅

inductive VisitState where
  | inProgress
  | done
  deriving DecidableEq

structure Search where
  state : ExtTreeMap NodeId VisitState
  /-- The nodes in progress, the one entered first at the front. -/
  stack : List NodeId
  reported : List (List NodeId)
  violations : List IntegrityViolation

def smallest (nodes : List NodeId) : Option NodeId :=
  nodes.foldl (fun best node =>
    match best with
    | none => some node
    | some least => if compare node least = .lt then some node else best) none

/-- A cycle, turned so that it starts at its smallest node. -/
def canonicalCycle (nodes : List NodeId) : List NodeId :=
  let min := ((smallest nodes).map nodes.idxOf).getD 0
  nodes.drop min ++ nodes.take min

def enter (search : Search) (node : NodeId) : Search :=
  { search with state := search.state.insert node .inProgress, stack := search.stack ++ [node] }

def leave (search : Search) (node : NodeId) : Search :=
  { search with state := search.state.insert node .done, stack := search.stack.dropLast }

def report (search : Search) (next : NodeId) : Search :=
  if next ∈ search.stack then
    let cycle := canonicalCycle (search.stack.drop (search.stack.idxOf next))
    if cycle ∈ search.reported then search
    else { search with
      reported := search.reported ++ [cycle]
      violations := search.violations ++ [.relevanceCycle cycle] }
  else search

def edgeAt (adjacency : ExtTreeMap NodeId (List NodeId)) (current : NodeId) (edge : Nat) :
    Option NodeId :=
  adjacency[current]?.bind fun targets => targets[edge]?

/-- One turn of the depth-first search; the frame of the node entered last is at the front. -/
def visit (adjacency : ExtTreeMap NodeId (List NodeId)) :
    List (NodeId × Nat) × Search → Run ((List (NodeId × Nat) × Search) ⊕ Search)
  | ([], search) => .ok (.inr search)
  | ((current, edge) :: frames, search) =>
    match edgeAt adjacency current edge with
    | some next =>
      match search.state[next]? with
      | some .done => .ok (.inl ((current, edge + 1) :: frames, search))
      | some .inProgress => .ok (.inl ((current, edge + 1) :: frames, report search next))
      | none => .ok (.inl ((next, 0) :: (current, edge + 1) :: frames, enter search next))
    | none => .ok (.inl (frames, leave search current))

def dfsCycles (adjacency : ExtTreeMap NodeId (List NodeId)) (fuel : Nat) (search : Search)
    (node : NodeId) : Run Search :=
  if node ∈ search.state then .ok search
  else loop (visit adjacency) fuel ([(node, 0)], enter search node)

def findRelevanceCycles (fuel : Nat) (live : List MaterializedNode)
    (byVar : ExtTreeMap String (List NodeId)) : Run (List IntegrityViolation) :=
  let adjacency := adjacencyOf live byVar
  (adjacency.keys.foldlM (dfsCycles adjacency fuel) ⟨∅, [], [], []⟩).map Search.violations

def typeOf (node : MaterializedNode) : Option String :=
  ((node.currentFields.get? "question_type").or (node.currentFields.get? "type")).bind Json.asStr

def nodeVarType (live : List MaterializedNode) : ExtTreeMap String String :=
  live.foldl (fun types node =>
    match definedVar node, typeOf node with
    | some var, some ty => types.insert var ty
    | _, _ => types) ∅

def varOfNode (live : List MaterializedNode) : ExtTreeMap NodeId String :=
  live.foldl (fun vars node =>
    match definedVar node with
    | some var => vars.insert node.id var
    | none => vars) ∅

def choiceValue (node : MaterializedNode) : Option String :=
  (fieldText node "value").or (fieldText node "name")

def choicesByVar (state : DocumentState) (live : List MaterializedNode) :
    ExtTreeMap String (List String) :=
  live.foldl (fun choices node =>
    if node.nodeType ≠ "choice" ∨ node.id ∈ state.removedChoices then choices
    else
      match node.parentId.bind ((varOfNode live)[·]?), choiceValue node with
      | some var, some value => extendAt choices var [value]
      | _, _ => choices) ∅

/-- A non-numeric type that a variable has where a number is asked for. -/
def addUsage (types : ExtTreeMap String String) (found : ExtTreeMap String String)
    (operand : Expr) : ExtTreeMap String String :=
  match operand.asVarRef with
  | some var =>
    match types[var]? with
    | some ty => if ty ∈ nonNumericTypes then found.insert var ty else found
    | none => found
  | none => found

def walkNumeric (types : ExtTreeMap String String) : Expr → ExtTreeMap String String →
    ExtTreeMap String String
  | .binOp op lhs rhs, found =>
    let here :=
      if op.isArithmetic || op.isOrdering then [lhs, rhs].foldl (addUsage types) found else found
    walkNumeric types rhs (walkNumeric types lhs here)
  | .unaryOp _ operand, found => walkNumeric types operand found
  | .call _ args, found => walkAll args found
  | .varRef _, found | .literal _, found | .dot, found => found
where walkAll : List Expr → ExtTreeMap String String → ExtTreeMap String String
  | [], found => found
  | arg :: args, found => walkAll args (walkNumeric types arg found)

def numericVarUsages (ast : Expr) (types : ExtTreeMap String String) : List (String × String) :=
  (walkNumeric types ast ∅).toList

/-- A variable that is not defined is left to the check of dangling references. -/
def isUndefinedChoice (byVar : ExtTreeMap String (List NodeId)) (types : ExtTreeMap String String)
    (choices : ExtTreeMap String (List String)) : String × String → Bool
  | (var, choice) => var ∈ byVar && types[var]?.any (· ∈ selectTypes) &&
    !(choice ∈ gathered choices var)

def shapeOf (debug : Char → String) (byVar : ExtTreeMap String (List NodeId))
    (types : ExtTreeMap String String) (choices : ExtTreeMap String (List String))
    (node : MaterializedNode) (field text : String) : List IntegrityViolation :=
  if isBlank text then []
  else
    match Expr.parse text with
    | .error error => [.invalidExpression node.id field (error.message debug)]
    | .ok ast =>
      (numericVarUsages ast types).map (fun (var, actual) =>
        .typeMismatch node.id field var "numeric" actual) ++
      (ast.selectedChoiceRefs.filter (isUndefinedChoice byVar types choices)).map
        fun (var, choice) => .undefinedChoice node.id field var choice

def validateIntegrity (debug : Char → String) (fuel : Nat) (state : DocumentState) :
    Run (List IntegrityViolation) :=
  let live := liveNodes state
  let byVar := definitions live
  (findRelevanceCycles fuel live byVar).map fun cycles =>
    duplicates byVar ++ eachExpression live (danglingIn byVar) ++ cycles ++
      eachExpression live (shapeOf debug byVar (nodeVarType live) (choicesByVar state live))

section Totality

variable {adjacency : ExtTreeMap NodeId (List NodeId)}

def entrances (adjacency : ExtTreeMap NodeId (List NodeId)) : List NodeId :=
  adjacency.toList.flatMap Prod.snd

def framesLeft (adjacency : ExtTreeMap NodeId (List NodeId)) (frames : List (NodeId × Nat))
    (search : Search) : Nat :=
  DepthFirst.turnsLeft (gathered adjacency) (entrances adjacency) frames fun node =>
    search.state.contains node

theorem edgeAt_eq (current : NodeId) (edge : Nat) :
    edgeAt adjacency current edge = (gathered adjacency current)[edge]? := by
  rw [edgeAt, gathered]
  cases adjacency[current]? <;> rfl

theorem mem_entrances {current next : NodeId} {edge : Nat}
    (found : edgeAt adjacency current edge = some next) : next ∈ entrances adjacency := by
  obtain ⟨targets, stored, at_⟩ := Option.bind_eq_some_iff.1 found
  refine mem_flatMap.2 ⟨(current, targets), ?_, mem_of_getElem? at_⟩
  exact ExtTreeMap.mem_toList_iff_getElem?_eq_some.2 stored

@[simp] theorem report_state (search : Search) (next : NodeId) :
    (report search next).state = search.state := by
  simp only [report]
  split
  · split <;> rfl
  · rfl

theorem visit_lowers {frames frames' : List (NodeId × Nat)} {search search' : Search}
    (step : visit adjacency (frames, search) = .ok (.inl (frames', search'))) :
    framesLeft adjacency frames' search' < framesLeft adjacency frames search := by
  cases frames with
  | nil => cases step
  | cons frame frames =>
    obtain ⟨current, edge⟩ := frame
    rw [visit] at step
    split at step
    · rename_i next found
      have more := (edgeAt_eq current edge).symm.trans found
      split at step
      · cases step
        exact turnsLeft_next _ frames _ more
      · cases step
        rw [framesLeft, report_state]
        exact turnsLeft_next _ frames _ more
      · rename_i fresh
        cases step
        refine turnsLeft_enter frames more (mem_entrances found) ?_ ?_ ?_
        · rw [ExtTreeMap.contains_eq_isSome_getElem?, fresh]
          rfl
        · simp [enter]
        · exact fun other marked => by simp [enter, marked]
    · cases step
      exact turnsLeft_leave _ _ _ _ fun other marked => by simp [leave, marked]

theorem visit_ok (s : List (NodeId × Nat) × Search) (e : Halt) : visit adjacency s ≠ .error e := by
  obtain ⟨frames, search⟩ := s
  cases frames with
  | nil => simp [visit]
  | cons frame frames =>
    rw [visit]
    split
    · split <;> simp
    · simp

theorem dfsCycles_settles (search : Search) (node : NodeId) :
    Settles fun fuel => dfsCycles adjacency fuel search node := by
  by_cases known : node ∈ search.state
  · simpa [dfsCycles, known] using ok search
  · simp only [dfsCycles, known]
    refine loop (fun _ => True) (fun s => framesLeft adjacency s.1 s.2) ?_ ?_ trivial
    · exact fun s _ => visit_ok s _
    · exact fun s next _ step => ⟨trivial, visit_lowers step⟩

theorem validateIntegrity_returns (debug : Char → String) (state : DocumentState) :
    ∃ violations bound, ∀ fuel ≥ bound, validateIntegrity debug fuel state = .ok violations := by
  have search : Settles fun fuel =>
      findRelevanceCycles fuel (liveNodes state) (definitions (liveNodes state)) :=
    map (foldlM (fun _ => True) (fun b a _ _ => dfsCycles_settles b a)
      (fun _ _ _ _ _ _ _ => trivial) trivial) _
  have safe (fuel : Nat) (failed : findRelevanceCycles fuel (liveNodes state)
      (definitions (liveNodes state)) = .error .panic) : False := by
    refine foldlM_ne_panic (f := dfsCycles _ fuel) ?_ _ _ (map_eq_error.1 failed)
    intro search node
    rw [dfsCycles]
    split
    · simp
    · exact loop_ne_panic (fun s => visit_ok s _) fuel _
  obtain ⟨cycles, bound, found⟩ := search.returns safe
  simp only [validateIntegrity]
  exact ⟨_, bound, fun fuel enough => by rw [found fuel enough]; rfl⟩

end Totality

section Definitions

variable {live : List MaterializedNode}

theorem definitions_eq_index : definitions live = index definedVar MaterializedNode.id live := by
  have step : define = indexStep definedVar MaterializedNode.id := by
    funext byVar node
    rw [define, indexStep]
    cases definedVar node <;> rfl
  rw [definitions, step, index]

theorem eachExpression_eq_nil {check : MaterializedNode → String → String → List IntegrityViolation}
    (clean : eachExpression live check = []) {field text : String}
    (mem : node ∈ live) (isField : field ∈ expressionFields)
    (written : fieldText node field = some text) : check node field text = [] := by
  have fields := flatMap_eq_nil_iff.1 clean node mem
  have here := flatMap_eq_nil_iff.1 fields field isField
  rwa [written] at here

end Definitions

def Defines (state : DocumentState) (name : String) (id : NodeId) : Prop :=
  ∃ n, state.nodes[id]? = some n ∧ n.deleted = false ∧ n.varName = some name

theorem definedVar_eq_some :
    definedVar node = some name ↔ node.varName = some name ∧ name ≠ "" := by
  simp [definedVar]

theorem mem_liveNodes :
    n ∈ liveNodes state ↔ ∃ id : NodeId, state.nodes[id]? = some n ∧ n.deleted = false := by
  simp only [liveNodes, mem_filter, mem_map, Prod.exists, exists_eq_right,
    ExtTreeMap.mem_toList_iff_getElem?_eq_some, Bool.not_eq_true']
  exact ⟨fun ⟨⟨id, stored⟩, live⟩ => ⟨id, stored, live⟩, fun ⟨id, stored, live⟩ => ⟨⟨id, stored⟩, live⟩⟩

def definers (state : DocumentState) (name : String) : List (NodeId × MaterializedNode) :=
  state.nodes.toList.filter fun entry =>
    decide (definedVar entry.2 = some name) && !entry.2.deleted

theorem gathered_definers (state : DocumentState) (name : String) :
    gathered (definitions (liveNodes state)) name =
      (definers state name).map fun entry => entry.2.id := by
  simp [definitions_eq_index, gathered_index, liveNodes, definers, filter_map]

theorem mem_definers (named : name ≠ "") {id : NodeId} : (id, n) ∈ definers state name ↔
      state.nodes[id]? = some n ∧ n.deleted = false ∧ n.varName = some name := by
  simp only [definers, mem_filter, ExtTreeMap.mem_toList_iff_getElem?_eq_some,
    Bool.and_eq_true, Bool.not_eq_true', decide_eq_true_eq, definedVar_eq_some]
  tauto

theorem length_definers_le {state : DocumentState} {name : String}
    (once : duplicates (definitions (liveNodes state)) = []) :
    (definers state name).length ≤ 1 := by
  rw [duplicates, definitions_eq_index] at once
  have few := (length_index_le _).1 (by simpa using once) name
  simpa [liveNodes, definers, filter_map] using few

theorem defines_unique (defined : name ∈ definitions (liveNodes state))
    (once : duplicates (definitions (liveNodes state)) = []) : ∃! id, Defines state name id := by
  rw [definitions_eq_index] at defined
  obtain ⟨node, mem, var⟩ := mem_index.1 defined
  obtain ⟨id, stored, live⟩ := mem_liveNodes.1 mem
  obtain ⟨varName, named⟩ := definedVar_eq_some.1 var
  have here := (mem_definers named).2 ⟨stored, live, varName⟩
  refine ⟨id, ⟨node, stored, live, varName⟩, ?_⟩
  rintro other ⟨n, stored', live', varName'⟩
  have there := (mem_definers named).2 ⟨stored', live', varName'⟩
  obtain ⟨i, within, isEntry⟩ := getElem_of_mem here
  obtain ⟨j, within', isEntry'⟩ := getElem_of_mem there
  have few := @length_definers_le state name once
  obtain rfl : i = j := by omega
  exact congrArg Prod.fst (isEntry'.symm.trans isEntry)

/-- In a state that passes, the references of an expression of a live node name exactly one live
node each, exactly if those do that have no name, and those that stand behind a `${` without a
closing brace wherever they occur name a live node. -/
theorem gate_finds_references (debug : Char → String) (fuel : Nat) (state : DocumentState)
    (passed : validateIntegrity debug fuel state = .ok [])
    (id : NodeId) (n : MaterializedNode) (field text : String) (ast : Expr)
    (stored : state.nodes[id]? = some n) (live : n.deleted = false)
    (isField : field ∈ expressionFields) (written : fieldText n field = some text)
    (parsed : Expr.parse text = .ok ast) :
    (∀ name, name ∈ ast.referencedVars ↔
      ∃ spot ∈ Expr.refSpots 0 [] text.toList, String.ofList (trim spot.2) = name) ∧
    ((∀ name ∈ ast.referencedVars, ∃! id, Defines state name id) ↔
      ("" ∈ ast.referencedVars → ∃! id, Defines state "" id) ∧
        ∀ name ∈ ast.referencedVars, name ≠ "" → Expr.Hidden text name → ∃ id, Defines state name id) := by
  obtain ⟨cycles, -, none⟩ := map_eq_ok.1 passed
  simp only [append_eq_nil_iff] at none
  obtain ⟨⟨⟨once, clean⟩, -⟩, -⟩ := none
  have listed := eachExpression_eq_nil clean (mem_liveNodes.2 ⟨id, stored, live⟩) isField written
  have defined (var : String) (found : var ∈ Expr.extractVarRefs text) :
      var ∈ definitions (liveNodes state) := by
    have known := filter_eq_nil_iff.1 (map_eq_nil_iff.1 listed) var found
    simpa using known
  refine ⟨fun name => Expr.mem_referencedVars parsed, fun all =>
    ⟨all "", fun name mem _ _ => (all name mem).exists⟩,
    fun ⟨empty, hidden⟩ name mem => ?_⟩
  by_cases named : name = ""
  · subst named
    exact empty mem
  refine defines_unique ?_ once
  by_cases isHidden : Expr.Hidden text name
  · obtain ⟨id, n, stored, live, varName⟩ := hidden name mem named isHidden
    rw [definitions_eq_index]
    exact mem_index.2 ⟨n, mem_liveNodes.2 ⟨id, stored, live⟩, definedVar_eq_some.2 ⟨varName, named⟩⟩
  · exact defined name (Expr.reference_found named isHidden)

def question (id : NodeId) (varName : Option String) (relevance : String) : MaterializedNode :=
  ⟨id, none, "item", "a0", .fields [("relevance", .str relevance)], varName, false⟩

theorem age_reference_resolves :
    "age" ∈ (Expr.binOp .gt (.varRef "age") (.literal (.number 17 0))).referencedVars ∧
    ∃! id, Defines (.ofNodes [question "a" (some "age") "", question "b" none "${age} > 17"]) "age" id := by
  have listed : "age" ∈ (Expr.binOp .gt (.varRef "age") (.literal (.number 17 0))).referencedVars := by
    decide +kernel
  refine ⟨listed, (gate_finds_references (fun c => c.toString) 16 _ (by decide +kernel) "b"
    (question "b" none "${age} > 17") "relevance" "${age} > 17"
    (.binOp .gt (.varRef "age") (.literal (.number 17 0))) (by decide +kernel) rfl (by decide)
    (by decide +kernel) rfl).2.2
      ⟨fun mem => absurd mem (by decide +kernel), fun name mem _ hidden => ?_⟩ "age" listed⟩
  have same : "age" = name := by simpa [Expr.referencedVars, Expr.collectVars] using mem
  have spot : ([], "age".toList) ∈ Expr.refSpots 0 [] "${age} > 17".toList := by decide +kernel
  obtain ⟨a, b, split, -⟩ := hidden _ spot (same ▸ by decide +kernel)
  simp at split

/-- A reference without a name passes. And a node whose name is written like the rest of a
string literal and the reference after it hides that reference. -/
theorem gate_misses_references :
    (validateIntegrity (fun c => c.toString) 16 (.ofNodes [question "a" none "${}"]) = .ok [] ∧
      Expr.parse "${}" = .ok (.varRef "") ∧
      ¬ ∃ id, Defines (.ofNodes [question "a" none "${}"]) "" id) ∧
    validateIntegrity (fun c => c.toString) 16
        (.ofNodes [question "a" none "'$\x7b' = $\x7bx\x7d", question "b" (some "' = $\x7bx") ""]) =
      .ok [] ∧
    Expr.parse "'$\x7b' = $\x7bx\x7d" =
      .ok (.binOp .eq (.literal (.str "$\x7b")) (.varRef "x")) ∧
    ¬ ∃ id, Defines (.ofNodes [question "a" none "'$\x7b' = $\x7bx\x7d",
      question "b" (some "' = $\x7bx") ""]) "x" id := by
  refine ⟨⟨by decide +kernel, rfl, ?_⟩, by decide +kernel, rfl, ?_⟩
  · rintro ⟨id, n, stored, -, varName⟩
    have mem := DocumentState.mem_of_getElem?_ofNodes stored
    simp only [mem_cons, not_mem_nil, or_false] at mem
    subst mem
    cases varName
  · rintro ⟨id, n, stored, -, varName⟩
    have mem := DocumentState.mem_of_getElem?_ofNodes stored
    simp only [mem_cons, not_mem_nil, or_false] at mem
    rcases mem with rfl | rfl
    · cases varName
    · simp [question] at varName

end Integrity
end Dynodoc
