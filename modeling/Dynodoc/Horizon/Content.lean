import Dynodoc.Horizon.View

/-! What a view says, whatever places its states were given: the calls that build a view act
on its content as if there were no interning. -/
namespace Dynodoc.Horizon
open Std (ExtTreeMap ExtTreeSet)
open Checkpoint (Address)
open Log (Uuid)
open Loop OrderedMap HistoryView HeadRef
open List hiding getElem?_insert

variable {more : List StateKey} {objects : ObjectGraph} {calls : List Call} {project : Uuid}
  {view : HistoryView}

/-- A commit with its states themselves. -/
structure Resolved where
  node : CommitNode
  files : ExtTreeSet StateKey
  inputs : ExtTreeSet StateKey

def Resolved.Names (commit : Resolved) (key : StateKey) : Prop :=
  key ∈ commit.files ∨ key ∈ commit.inputs

structure Content where
  branches : List HeadRef
  commits : List Resolved
  skeleton : List SkeletonEntry
  holds : List Hold
  objects : StateKey → Option Nat

def Commit.resolved (commit : Commit) (address : Address) (bytes : Nat) (storedHeight : Option Nat) :
    Resolved where
  node := commit.node address bytes storedHeight
  files := .ofList commit.fileKeys
  inputs := .ofList commit.inputKeys

/-- The first commit of an address stays. -/
def addResolved (commits : List Resolved) (commit : Resolved) : List Resolved :=
  if commit.node.address ∈ commits.map fun known => known.node.address then commits
  else commits ++ [commit]

namespace Content

def empty : Content := ⟨[], [], [], [], fun _ => none⟩

def Knows (content : Content) (key : StateKey) : Prop := ∃ commit ∈ content.commits, commit.Names key

open Classical in
noncomputable def call (content : Content) : Call → Content
  | .commit address commit bytes storedHeight =>
    { content with
      commits := addResolved content.commits (commit.resolved address bytes storedHeight) }
  | .branch head => { content with branches := content.branches ++ [head] }
  | .skeleton entry => { content with skeleton := content.skeleton ++ [entry] }
  | .hold hold => { content with holds := content.holds ++ [hold] }
  | .stateObject state object =>
    if content.Knows state then
      { content with objects := fun key => if key = state then some object else content.objects key }
    else content

end Content

namespace HistoryView

variable {view' : HistoryView}

def inputStates (view : HistoryView) (commit : ViewCommit) : List StateKey :=
  commit.inputs.filterMap (view.states[·]?)

def resolve (view : HistoryView) (commit : ViewCommit) : Resolved :=
  ⟨commit.toCommitNode, .ofList (view.fileStates commit), .ofList (view.inputStates commit)⟩

def objectOf (view : HistoryView) (key : StateKey) : Option Nat :=
  if key ∈ view.states then view.stateObjects[view.states.idxOf key]? else none

def content (view : HistoryView) : Content where
  branches := view.branches
  commits := view.commits.map view.resolve
  skeleton := view.skeleton
  holds := view.holds
  objects := view.objectOf

/-- A view lists the states that its commits name, and no others. -/
def Complete (view : HistoryView) : Prop := ∀ key, key ∈ view.states ↔ view.content.Knows key

end HistoryView

section Steps

variable {view' : HistoryView} {address : Address} {commit : Commit} {bytes : Nat}
  {storedHeight : Option Nat}

theorem filterMap_idxOf {keys states : List StateKey} (listed : ∀ key ∈ keys, key ∈ states) :
    (keys.map states.idxOf).filterMap (states[·]?) = keys := by
  induction keys with
  | nil => rfl
  | cons key keys ih =>
    have here : states[states.idxOf key]? = some key := by
      have lt := idxOf_lt_length_of_mem (listed key (by simp))
      rw [getElem?_eq_getElem lt, getElem_idxOf lt]
    rw [map_cons, filterMap_cons_some here,
      ih fun other mem => listed other (mem_cons_of_mem _ mem)]

theorem filterMap_extended {states : List StateKey} {places : List Nat}
    (within : ∀ i ∈ places, i < states.length) :
    places.filterMap ((states ++ more)[·]?) = places.filterMap (states[·]?) :=
  filterMap_congr fun i mem => getElem?_append_left (within i mem)

theorem resolve_extended {old : ViewCommit} (extended : view'.states = view.states ++ more)
    (within : ∀ i ∈ old.files ++ old.inputs, i < view.states.length) :
    view'.resolve old = view.resolve old := by
  rw [resolve, resolve, fileStates, fileStates,
    inputStates, inputStates, extended,
    filterMap_extended fun i mem => within i (mem_append_left _ mem),
    filterMap_extended fun i mem => within i (mem_append_right _ mem)]

theorem mem_statesWith (address : Address) (bytes : Nat) (storedHeight : Option Nat) (key : StateKey) :
    key ∈ view.statesWith commit ↔
      key ∈ view.states ∨ (commit.resolved address bytes storedHeight).Names key := by
  rw [statesWith, (interned_internAll _ _).listed, (interned_internAll _ _).listed,
    Resolved.Names, Commit.resolved, or_assoc]
  simp

theorem resolve_viewCommit (states : view'.states = view.statesWith commit) :
    view'.resolve (view.viewCommit address commit bytes storedHeight) =
      commit.resolved address bytes storedHeight := by
  have files := interned_internAll commit.fileKeys view.states
  have inputs := interned_internAll commit.inputKeys (internAll commit.fileKeys view.states).2
  have inputStates : view'.inputStates (view.viewCommit address commit bytes storedHeight) =
      commit.inputKeys := by
    rw [inputStates, states, viewCommit, inputs.places]
    exact filterMap_idxOf fun key mem => (inputs.listed key).2 (.inr mem)
  have fileStates (key : StateKey) :
      key ∈ view'.fileStates (view.viewCommit address commit bytes storedHeight) ↔
        key ∈ commit.fileKeys := by
    obtain ⟨more, extended⟩ := inputs.extended
    have within (i : Nat) (mem : i ∈ (internAll commit.fileKeys view.states).1) :=
      files.lt_length mem
    have same : (internAll commit.fileKeys view.states).1.filterMap (view'.states[·]?) =
        commit.fileKeys := by
      rw [states, statesWith, extended, filterMap_extended within, files.places]
      exact filterMap_idxOf fun key mem => (files.listed key).2 (.inr mem)
    rw [← same, fileStates, viewCommit]
    simp
  rw [resolve, inputStates]
  congr 1
  refine ExtTreeSet.ext_mem fun key => ?_
  simp [fileStates key]

theorem objectOf_extended (extended : view'.states = view.states ++ more)
    (objects : view'.stateObjects = view.stateObjects) : view'.objectOf = view.objectOf := by
  funext key
  rw [objectOf, objectOf, extended, objects]
  by_cases old : key ∈ view.states
  · rw [if_pos (mem_append_left _ old), if_pos old, idxOf_append_of_mem old]
  · rw [idxOf_append_of_notMem old]
    split
    · rw [OrderedMap.getElem?_eq_none_iff]
      intro mem
      have := view.placed _ mem
      omega
    · rfl

theorem mem_addresses {a : Address} :
    a ∈ view.content.commits.map (fun known => known.node.address) ↔
      a ∈ view.commits.map fun known => known.address := by
  simp [content, resolve]

theorem content_addCommit (complete : view.Complete)
    (added : view.addCommit address commit bytes storedHeight = .ok view') :
    view'.content = view.content.call (.commit address commit bytes storedHeight) ∧
      view'.Complete := by
  rw [addCommit] at added
  obtain ⟨-, added⟩ := guard_eq_ok.1 added
  split at added
  · rename_i seen
    cases added
    have known : (commit.resolved address bytes storedHeight).node.address ∈
        view.content.commits.map fun known => known.node.address := mem_addresses.2 seen
    rw [Content.call, addResolved, if_pos known]
    exact ⟨rfl, complete⟩
  · rename_i new
    have fresh : (commit.resolved address bytes storedHeight).node.address ∉
        view.content.commits.map fun known => known.node.address := mt mem_addresses.1 new
    have states : view'.states = view.statesWith commit := by cases added; rfl
    have commits : view'.commits =
        view.commits ++ [view.viewCommit address commit bytes storedHeight] := by cases added; rfl
    obtain ⟨some, first⟩ := (interned_internAll commit.fileKeys view.states).extended
    obtain ⟨more, second⟩ :=
      (interned_internAll commit.inputKeys (internAll commit.fileKeys view.states).2).extended
    have extended : view'.states = view.states ++ (some ++ more) := by
      rw [states, statesWith, second, first, append_assoc]
    have resolved : view'.content.commits =
        view.content.commits ++ [commit.resolved address bytes storedHeight] := by
      have old : view.commits.map view'.resolve = view.commits.map view.resolve :=
        map_congr_left fun old mem => resolve_extended extended (view.within old mem)
      show view'.commits.map view'.resolve = _
      rw [commits, map_append, map_singleton, resolve_viewCommit states, old]
      rfl
    constructor
    · rw [Content.call, addResolved, if_neg fresh, ← resolved]
      have objects : view'.objectOf = view.objectOf :=
        objectOf_extended extended (by cases added; rfl)
      cases added
      exact Content.mk.injEq .. ▸ ⟨rfl, rfl, rfl, rfl, objects⟩
    · intro key
      rw [states, mem_statesWith address bytes storedHeight key, complete key, Content.Knows,
        Content.Knows, resolved]
      simp [or_and_right, exists_or]

theorem content_addBranch {head : HeadRef} (complete : view.Complete)
    (added : view.addBranch head = .ok view') :
    view'.content = view.content.call (.branch head) ∧ view'.Complete := by
  rw [addBranch] at added
  split at added
  · contradiction
  split at added
  · contradiction
  cases added
  exact ⟨rfl, complete⟩

theorem content_addHold {hold : Hold} (complete : view.Complete)
    (added : view.addHold hold = .ok view') :
    view'.content = view.content.call (.hold hold) ∧ view'.Complete := by
  rw [addHold] at added
  obtain ⟨-, added⟩ := guard_eq_ok.1 added
  cases added
  exact ⟨rfl, complete⟩

theorem objectOf_setStateObject {state : StateKey} {object : Nat} (known : state ∈ view.states)
    (key : StateKey) : (view.setStateObject state object).objectOf key =
      if key = state then some object else view.objectOf key := by
  have states : (view.setStateObject state object).states = view.states := by
    rw [setStateObject, dif_pos known]
  have objects : (view.setStateObject state object).stateObjects =
      view.stateObjects.insert (view.states.idxOf state) object := by
    rw [setStateObject, dif_pos known]
  rw [objectOf, objectOf, states, objects, getElem?_insert]
  by_cases same : key = state
  · rw [if_pos same, if_pos (same ▸ known), if_pos (by rw [same])]
  · rw [if_neg same]
    by_cases listed : key ∈ view.states
    · have apart : view.states.idxOf key ≠ view.states.idxOf state :=
        fun place => same ((idxOf_inj listed).1 place)
      rw [if_pos listed, if_pos listed, if_neg apart]
    · rw [if_neg listed, if_neg listed]

theorem content_setStateObject (complete : view.Complete) (state : StateKey) (object : Nat) :
    (view.setStateObject state object).content = view.content.call (.stateObject state object) ∧
      (view.setStateObject state object).Complete := by
  rw [Content.call]
  by_cases known : state ∈ view.states
  · have objects := funext (@objectOf_setStateObject view state object known)
    rw [setStateObject, dif_pos known] at objects ⊢
    rw [if_pos ((complete state).1 known)]
    exact ⟨Content.mk.injEq .. ▸ ⟨rfl, rfl, rfl, rfl, objects⟩, complete⟩
  · rw [setStateObject, dif_neg known, if_neg (mt (complete state).2 known)]
    exact ⟨rfl, complete⟩

theorem content_call {call : Call} (complete : view.Complete) (called : view.call call = .ok view') :
    view'.content = view.content.call call ∧ view'.Complete := by
  cases call with
  | commit => exact content_addCommit complete called
  | branch => exact content_addBranch complete called
  | skeleton =>
    cases called
    exact ⟨rfl, complete⟩
  | hold => exact content_addHold complete called
  | stateObject state object =>
    cases called
    exact content_setStateObject complete state object

theorem fixed_call {call : Call} (called : view.call call = .ok view') :
    view'.project = view.project ∧ view'.objects = view.objects := by
  cases call with
  | commit =>
    simp only [call, addCommit] at called
    obtain ⟨-, called⟩ := guard_eq_ok.1 called
    split at called <;> cases called <;> exact ⟨rfl, rfl⟩
  | branch =>
    simp only [call, addBranch] at called
    split at called
    · contradiction
    split at called
    · contradiction
    cases called
    exact ⟨rfl, rfl⟩
  | skeleton =>
    cases called
    exact ⟨rfl, rfl⟩
  | hold =>
    simp only [call, addHold] at called
    obtain ⟨-, called⟩ := guard_eq_ok.1 called
    cases called
    exact ⟨rfl, rfl⟩
  | stateObject =>
    simp only [call, setStateObject, Except.ok.injEq] at called
    split at called <;> cases called <;> exact ⟨rfl, rfl⟩

end Steps

theorem filterMap_cons_toList {α β : Type} (f : α → Option β) (a : α) (l : List α) :
    (a :: l).filterMap f = (f a).toList ++ l.filterMap f := by
  cases found : f a <;> simp [found]

def Call.branch? : Call → Option HeadRef
  | .branch head => some head
  | _ => none

def Call.skeleton? : Call → Option SkeletonEntry
  | .skeleton entry => some entry
  | _ => none

def Call.hold? : Call → Option Hold
  | .hold pinned => some pinned
  | _ => none

def Call.commit? : Call → Option Resolved
  | .commit address stored bytes storedHeight => some (stored.resolved address bytes storedHeight)
  | _ => none

namespace Content

variable (content : Content) (call : Call) (calls : List Call)

open Call

/-- What a call adds to the lists. -/
theorem lists_call : (content.call call).branches = content.branches ++ call.branch?.toList ∧
    (content.call call).skeleton = content.skeleton ++ call.skeleton?.toList ∧
    (content.call call).holds = content.holds ++ call.hold?.toList ∧
    (content.call call).commits = call.commit?.toList.foldl addResolved content.commits := by
  cases call with
  | stateObject =>
    rw [Content.call]
    split <;> simp [branch?, skeleton?, hold?, commit?]
  | _ => simp [Content.call, branch?, skeleton?, hold?, commit?]

/-- A field to which calls append is the list of what they append. -/
theorem run_appends {α : Type} (field : Content → List α) (given : Call → Option α)
    (step : ∀ content call, field (content.call call) = field content ++ (given call).toList) :
    field (calls.foldl Content.call content) = field content ++ calls.filterMap given := by
  induction calls generalizing content with
  | nil => simp
  | cons call calls ih => rw [foldl_cons, ih, step, filterMap_cons_toList, append_assoc]

theorem run_commits : (calls.foldl Content.call content).commits =
    (calls.filterMap commit?).foldl addResolved content.commits := by
  induction calls generalizing content with
  | nil => simp
  | cons call calls ih =>
    rw [foldl_cons, ih, (lists_call _ _).2.2.2, filterMap_cons_toList, foldl_append]

noncomputable def run : Content := calls.foldl Content.call Content.empty

theorem run_branches : (run calls).branches = calls.filterMap branch? :=
  run_appends _ calls branches branch? fun content call => (lists_call content call).1

theorem run_skeleton : (run calls).skeleton = calls.filterMap skeleton? :=
  run_appends _ calls skeleton skeleton? fun content call => (lists_call content call).2.1

theorem run_holds : (run calls).holds = calls.filterMap hold? :=
  run_appends _ calls holds hold? fun content call => (lists_call content call).2.2.1

end Content

/-- When a commit is always added in the same form, the order in which commits are added does
not matter to which are there. -/
theorem mem_foldl_addResolved {l known : List Resolved} {commit : Resolved}
    (agree : ∀ a ∈ known ++ l, ∀ b ∈ known ++ l, a.node.address = b.node.address → a = b) :
    commit ∈ l.foldl addResolved known ↔ commit ∈ known ∨ commit ∈ l := by
  induction l generalizing known with
  | nil => simp
  | cons next l ih =>
    rw [foldl_cons, addResolved]
    split
    · rename_i old
      obtain ⟨found, mem, same⟩ := mem_map.1 old
      have again : found = next := agree found (by simp [mem]) next (by simp) same
      rw [ih fun a memA b memB => agree a (by grind) b (by grind)]
      grind
    · rw [ih fun a memA b memB => agree a (by grind) b (by grind)]
      simp [or_assoc]

/-- What the view checks of a call, apart from a branch that is named twice. -/
def Call.Valid (project : Uuid) : Call → Prop
  | .commit _ stored _ _ => stored.project = project
  | .branch head => validBranch head.branch = true ∧ 0 < head.generation
  | .hold pinned => badReason pinned.reason = false
  | .skeleton _ | .stateObject _ _ => True

theorem call_ok_iff {call : Call} :
    (∃ view', view.call call = .ok view') ↔
      call.Valid view.project ∧ ∀ head ∈ call.branch?, head.branch ∉ view.branches.map branch := by
  cases call with
  | commit address commit bytes storedHeight =>
    simp only [call, addCommit, Call.Valid, Call.branch?]
    split
    · simp [*]
    · split <;> simp_all
  | branch head =>
    simp only [call, addBranch, Call.Valid, Call.branch?]
    split
    · rename_i taken
      simp only [reduceCtorEq, exists_false, false_iff]
      exact fun allowed => allowed.2 head rfl taken
    · rename_i new
      split
      · rename_i bad
        simp only [reduceCtorEq, exists_false, false_iff]
        grind
      · rename_i fine
        simp only [Except.ok.injEq, exists_eq', true_iff]
        grind
  | skeleton => simp [call, Call.Valid, Call.branch?]
  | hold hold =>
    simp only [call, addHold, Call.Valid, Call.branch?]
    split <;> simp_all
  | stateObject => simp [call, Call.Valid, Call.branch?]

theorem branches_call {view' : HistoryView} {call : Call} (complete : view.Complete)
    (called : view.call call = .ok view') : view'.branches = view.branches ++ call.branch?.toList := by
  have content := (content_call complete called).1
  rw [show view'.branches = view'.content.branches from rfl, content, (Content.lists_call _ _).1]
  rfl

/-- Building succeeds when every call is valid and no branch is named twice. -/
theorem build_ok_iff :
    (∃ view, build project objects calls = .ok view) ↔
      (∀ call ∈ calls, call.Valid project) ∧
        ((calls.filterMap Call.branch?).map branch).Nodup := by
  have go (calls : List Call) (before : HistoryView) (complete : before.Complete) :
      (∃ view, calls.foldlM call before = .ok view) ↔
        (∀ call ∈ calls, call.Valid before.project) ∧
          ((before.branches ++ calls.filterMap Call.branch?).map branch).Nodup := by
    induction calls generalizing before with
    | nil => simpa [pure, Except.pure] using before.named
    | cons call calls ih =>
      constructor
      · rintro ⟨view, run⟩
        rw [foldlM_cons, bind_eq_ok] at run
        obtain ⟨next, called, run⟩ := run
        obtain ⟨valid, -⟩ := call_ok_iff.1 ⟨next, called⟩
        obtain ⟨allValid, distinct⟩ := (ih next (content_call complete called).2).1 ⟨view, run⟩
        rw [(fixed_call called).1] at allValid
        rw [branches_call complete called] at distinct
        refine ⟨forall_mem_cons.2 ⟨valid, allValid⟩, ?_⟩
        rwa [filterMap_cons_toList, ← append_assoc]
      · rintro ⟨allValid, distinct⟩
        obtain ⟨valid, allValid⟩ := forall_mem_cons.1 allValid
        have new : ∀ head ∈ call.branch?, head.branch ∉ before.branches.map branch := by
          intro head isHead
          have first : (call :: calls).filterMap Call.branch? =
              head :: calls.filterMap Call.branch? := filterMap_cons_some isHead
          rw [first, map_append, map_cons] at distinct
          exact fun old => (disjoint_of_nodup_append distinct) old (by simp)
        obtain ⟨next, called⟩ := call_ok_iff.2 ⟨valid, new⟩
        have rest := (ih next (content_call complete called).2).2
        rw [(fixed_call called).1, branches_call complete called] at rest
        rw [filterMap_cons_toList, ← append_assoc] at distinct
        obtain ⟨view, run⟩ := rest ⟨allValid, distinct⟩
        exact ⟨view, by rw [foldlM_cons, called]; exact run⟩
  have start : (new project objects).Complete := by
    simp [HistoryView.Complete, new, content, Content.Knows]
  exact go calls (new project objects) start

section Runs

variable {view' : HistoryView}

/-- A view that has been built holds what its calls said. -/
structure Describes (project : Uuid) (objects : ObjectGraph) (calls : List Call)
    (view : HistoryView) : Prop where
  project : view.project = project
  objects : view.objects = objects
  complete : view.Complete
  content : view.content = Content.run calls

theorem describes_of_build (built : build project objects calls = .ok view) :
    Describes project objects calls view := by
  have go (calls : List Call) (before : HistoryView) (complete : before.Complete)
      (run : calls.foldlM call before = .ok view) :
      view.project = before.project ∧ view.objects = before.objects ∧ view.Complete ∧
        view.content = calls.foldl Content.call before.content := by
    induction calls generalizing before with
    | nil =>
      cases run
      exact ⟨rfl, rfl, complete, rfl⟩
    | cons call calls ih =>
      rw [foldlM_cons, bind_eq_ok] at run
      obtain ⟨next, called, run⟩ := run
      obtain ⟨content, complete⟩ := content_call complete called
      obtain ⟨project, objects⟩ := fixed_call called
      obtain ⟨project', objects', complete', content'⟩ := ih next complete run
      exact ⟨project'.trans project, objects'.trans objects, complete', by rw [content', content]; rfl⟩
  have start : (new project objects).Complete := by
    simp [HistoryView.Complete, new, content, Content.Knows]
  have blank : (new project objects).content = Content.empty := by
    rw [content, Content.empty, Content.mk.injEq]
    exact ⟨rfl, rfl, rfl, rfl, funext fun key => by simp [objectOf, new]⟩
  obtain ⟨sameProject, sameObjects, complete, content⟩ := go calls _ start built
  exact ⟨sameProject, sameObjects, complete, content.trans (by rw [blank]; rfl)⟩

end Runs

end Dynodoc.Horizon
