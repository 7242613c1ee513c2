import Dynodoc.Horizon.Record

/-! What the planner of a horizon reads. File states are interned: a view lists each state
once, in the order in which it was first named, and refers to it by its place. -/
namespace Dynodoc.Horizon
open Std (ExtTreeMap ExtTreeSet)
open Checkpoint (Address)
open Log (Uuid)
open List

variable {places : List Nat} {i : Nat}

structure FileEntry where
  document : Uuid
  state : Address

structure Source where
  commit : Address
  mainline : Option Address

structure Resolution where
  document : Uuid
  base : Address
  left : Address
  right : Address

structure Commit where
  version : Nat
  project : Uuid
  parents : List Address
  files : ExtTreeMap String FileEntry
  authoredAtMs : Int
  recovery : Option Source
  sameFileResolutions : List Resolution

structure Hold where
  commit : Address
  reason : String
  deriving DecidableEq

structure ObjectGraph where
  sizes : List Nat
  children : List (List Nat)

/-- What the retention rules read of a stored commit. -/
structure CommitNode where
  address : Address
  version : Nat
  parents : List Address
  /-- Recovery source and mainline. -/
  recovery : List Address
  authoredAtMs : Int
  bytes : Nat
  storedHeight : Option Nat

structure ViewCommit extends CommitNode where
  /-- The interned states of the file entries, sorted and unique. -/
  files : List Nat
  /-- The interned base, left and right states of each record, one after another. -/
  inputs : List Nat

structure HistoryView where
  project : Uuid
  branches : List HeadRef
  commits : List ViewCommit
  skeleton : List SkeletonEntry
  holds : List Hold
  states : List StateKey
  stateObjects : ExtTreeMap Nat Nat
  objects : ObjectGraph
  distinct : (commits.map fun commit => commit.address).Nodup
  named : (branches.map HeadRef.branch).Nodup
  interned : states.Nodup
  within : ∀ commit ∈ commits, ∀ i ∈ commit.files ++ commit.inputs, i < states.length
  placed : ∀ i ∈ stateObjects, i < states.length

def intern (key : StateKey) (states : List StateKey) : Nat × List StateKey :=
  if key ∈ states then (states.idxOf key, states) else (states.length, states ++ [key])

def internAll : List StateKey → List StateKey → List Nat × List StateKey
  | [], states => ([], states)
  | key :: keys, states =>
    let first := intern key states
    let rest := internAll keys first.2
    (first.1 :: rest.1, rest.2)

/-- The states after some keys have been interned, and the places of the keys in them. -/
structure Interned (keys states : List StateKey) (places : List Nat) (after : List StateKey) :
    Prop where
  nodup : states.Nodup → after.Nodup
  extended : ∃ more, after = states ++ more
  places : places = keys.map after.idxOf
  listed : ∀ key, key ∈ after ↔ key ∈ states ∨ key ∈ keys

theorem interned_intern (key : StateKey) (states : List StateKey) :
    Interned [key] states [(intern key states).1] (intern key states).2 := by
  rw [intern]
  split
  · rename_i mem
    exact ⟨id, ⟨[], by simp⟩, rfl, by simp [mem]⟩
  · rename_i new
    refine ⟨fun nodup => ?_, ⟨[key], rfl⟩, ?_, by simp⟩
    · simpa using nodup.concat new
    · simp [idxOf_append_of_notMem new]

theorem interned_internAll (keys states : List StateKey) :
    Interned keys states (internAll keys states).1 (internAll keys states).2 := by
  induction keys generalizing states with
  | nil => exact ⟨id, ⟨[], by simp [internAll]⟩, rfl, by simp [internAll]⟩
  | cons key keys ih =>
    have first := interned_intern key states
    have rest := ih (intern key states).2
    obtain ⟨some, one⟩ := first.extended
    obtain ⟨more, all⟩ := rest.extended
    rw [internAll]
    refine ⟨fun nodup => rest.nodup (first.nodup nodup), ⟨some ++ more, ?_⟩, ?_, fun other => ?_⟩
    · rw [all, one, append_assoc]
    · have known : key ∈ (intern key states).2 := (first.listed key).2 (.inr (by simp))
      have place : (intern key states).1 = (intern key states).2.idxOf key := by
        simpa using first.places
      rw [map_cons, ← rest.places, all, idxOf_append_of_mem known, ← place]
    · rw [rest.listed, first.listed]
      simp [or_assoc]

section

variable {keys states after : List StateKey}

theorem Interned.lt_length
    (interned : Interned keys states places after) (mem : i ∈ places) : i < after.length := by
  rw [interned.places] at mem
  obtain ⟨key, isKey, rfl⟩ := mem_map.1 mem
  exact idxOf_lt_length_of_mem ((interned.listed key).2 (.inr isKey))

theorem Interned.length_le
    (interned : Interned keys states places after) : states.length ≤ after.length := by
  obtain ⟨more, rfl⟩ := interned.extended
  simp

end

def Commit.fileKeys (commit : Commit) : List StateKey :=
  commit.files.toList.map fun (_, entry) => ⟨entry.document, entry.state⟩

def Resolution.keys (record : Resolution) : List StateKey :=
  [⟨record.document, record.base⟩, ⟨record.document, record.left⟩, ⟨record.document, record.right⟩]

def Commit.inputKeys (commit : Commit) : List StateKey :=
  commit.sameFileResolutions.flatMap Resolution.keys

def Commit.references (commit : Commit) : List Address :=
  match commit.recovery with
  | some source => source.commit :: source.mainline.toList
  | none => []

def Commit.node (commit : Commit) (address : Address) (bytes : Nat) (storedHeight : Option Nat) :
    CommitNode where
  address := address
  version := commit.version
  parents := commit.parents
  recovery := commit.references
  authoredAtMs := commit.authoredAtMs
  bytes := bytes
  storedHeight := storedHeight

namespace HistoryView

def new (project : Uuid) (objects : ObjectGraph) : HistoryView where
  project := project
  branches := []
  commits := []
  skeleton := []
  holds := []
  states := []
  stateObjects := ∅
  objects := objects
  distinct := nodup_nil
  named := nodup_nil
  interned := nodup_nil
  within := by simp
  placed := by simp

def addBranch (view : HistoryView) (head : HeadRef) : Except Error HistoryView :=
  if taken : head.branch ∈ view.branches.map HeadRef.branch then .error (.format "branch head")
  else if !validBranch head.branch ∨ head.generation ≤ 0 then .error (.format "branch head")
  else .ok { view with
    branches := view.branches ++ [head]
    named := by simpa using view.named.concat taken }

def statesWith (view : HistoryView) (commit : Commit) : List StateKey :=
  (internAll commit.inputKeys (internAll commit.fileKeys view.states).2).2

def viewCommit (view : HistoryView) (address : Address) (commit : Commit) (bytes : Nat)
    (storedHeight : Option Nat) : ViewCommit where
  toCommitNode := commit.node address bytes storedHeight
  files := (ExtTreeSet.ofList (internAll commit.fileKeys view.states).1).toList
  inputs := (internAll commit.inputKeys (internAll commit.fileKeys view.states).2).1

theorem lt_of_mem_viewCommit {view : HistoryView} {address : Address} {commit : Commit}
    {bytes : Nat} {storedHeight : Option Nat}
    (mem : i ∈ (view.viewCommit address commit bytes storedHeight).files ++
      (view.viewCommit address commit bytes storedHeight).inputs) :
    i < (view.statesWith commit).length := by
  have files := interned_internAll commit.fileKeys view.states
  have inputs := interned_internAll commit.inputKeys (internAll commit.fileKeys view.states).2
  rcases mem_append.1 mem with mem | mem
  · have place : i ∈ (internAll commit.fileKeys view.states).1 := by
      simpa [viewCommit] using mem
    exact Nat.lt_of_lt_of_le (files.lt_length place) inputs.length_le
  · exact inputs.lt_length mem

theorem length_le_statesWith (view : HistoryView) (commit : Commit) :
    view.states.length ≤ (view.statesWith commit).length :=
  Nat.le_trans (interned_internAll _ _).length_le (interned_internAll _ _).length_le

/-- A commit that is known already is left as it is. -/
def addCommit (view : HistoryView) (address : Address) (commit : Commit) (bytes : Nat)
    (storedHeight : Option Nat) : Except Error HistoryView :=
  if commit.project ≠ view.project then .error (.format "commit project")
  else if seen : address ∈ view.commits.map fun known => known.address then .ok view
  else .ok { view with
    commits := view.commits ++ [view.viewCommit address commit bytes storedHeight]
    states := view.statesWith commit
    distinct := by simpa [viewCommit, Commit.node] using view.distinct.concat seen
    interned := (interned_internAll _ _).nodup ((interned_internAll _ _).nodup view.interned)
    within := by
      intro old mem i place
      rcases mem_append.1 mem with mem | mem
      · exact Nat.lt_of_lt_of_le (view.within old mem i place) (view.length_le_statesWith commit)
      · rw [mem_singleton.1 mem] at place
        exact lt_of_mem_viewCommit place
    placed := fun i mem => Nat.lt_of_lt_of_le (view.placed i mem) (view.length_le_statesWith commit) }

def addPriorSkeleton (view : HistoryView) (entry : SkeletonEntry) : HistoryView :=
  { view with skeleton := view.skeleton ++ [entry] }

def isControl (c : Char) : Bool := c.toNat < 0x20 || (0x7F ≤ c.toNat && c.toNat < 0xA0)

def badReason (reason : String) : Bool :=
  reason = "" || reason.utf8ByteSize > 200 || reason.toList.any isControl

def addHold (view : HistoryView) (hold : Hold) : Except Error HistoryView :=
  if badReason hold.reason then .error (.format "hold reason")
  else .ok { view with holds := view.holds ++ [hold] }

/-- Says nothing about a state that no commit names. -/
def setStateObject (view : HistoryView) (state : StateKey) (object : Nat) : HistoryView :=
  if known : state ∈ view.states then
    { view with
      stateObjects := view.stateObjects.insert (view.states.idxOf state) object
      placed := by
        intro i mem
        rcases Std.ExtTreeMap.mem_insert.1 mem with here | old
        · rw [← Std.compare_eq_iff_eq.1 here]
          exact idxOf_lt_length_of_mem known
        · exact view.placed i old }
  else view

def fileStates (view : HistoryView) (commit : ViewCommit) : List StateKey :=
  commit.files.filterMap (view.states[·]?)

end HistoryView

inductive Call where
  | commit (address : Address) (commit : Commit) (bytes : Nat) (storedHeight : Option Nat)
  | branch (head : HeadRef)
  | skeleton (entry : SkeletonEntry)
  | hold (hold : Hold)
  | stateObject (state : StateKey) (object : Nat)

def HistoryView.call (view : HistoryView) : Call → Except Error HistoryView
  | .commit address commit bytes storedHeight => view.addCommit address commit bytes storedHeight
  | .branch head => view.addBranch head
  | .skeleton entry => .ok (view.addPriorSkeleton entry)
  | .hold hold => view.addHold hold
  | .stateObject state object => .ok (view.setStateObject state object)

def HistoryView.build (project : Uuid) (objects : ObjectGraph) (calls : List Call) :
    Except Error HistoryView :=
  calls.foldlM HistoryView.call (HistoryView.new project objects)

end Dynodoc.Horizon
