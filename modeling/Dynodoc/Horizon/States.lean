import Dynodoc.Horizon.Content
import Dynodoc.Horizon.Plan

/-! The states and objects of a plan, read through the content of its view: no place that a
state was given matters. -/
namespace Dynodoc.Horizon
open Std (ExtTreeMap ExtTreeSet)
open Checkpoint (Address)
open Worklist Sorted OrderedMap Loop List HistoryView

variable {view : HistoryView} {i object : Nat} {places : List Nat} {key : StateKey}

namespace Content

variable (content : Content) (files inputs : Address → Bool)

def FileState (key : StateKey) : Prop := ∃ commit ∈ content.commits, key ∈ commit.files

def KeptState (key : StateKey) : Prop :=
  ∃ commit ∈ content.commits, files commit.node.address = true ∧ key ∈ commit.files ∨
    inputs commit.node.address = true ∧ key ∈ commit.inputs

def ReleasedState (key : StateKey) : Prop :=
  content.FileState key ∧ ¬ content.KeptState files inputs key

def Reached (children : List (List Nat)) (states : StateKey → Prop) (object : Nat) : Prop :=
  ∃ key root, states key ∧ content.objects key = some root ∧
    Relation.ReflTransGen (fun parent child => child ∈ childrenOf children parent) root object

end Content

section Places

variable {files inputs : Address → Bool} {commit : ViewCommit}

section Known

variable (known : view.states[i]? = some key)

include known

theorem place_unique :
    key ∈ places.filterMap (view.states[·]?) ↔ i ∈ places := by
  constructor
  · intro mem
    obtain ⟨j, listed, there⟩ := mem_filterMap.1 mem
    have same : i = j :=
      (getElem?_inj (List.getElem?_eq_some_iff.1 known).1 view.interned).1 (known.trans there.symm)
    exact same ▸ listed
  · exact fun listed => mem_filterMap.2 ⟨i, listed, known⟩

theorem mem_files :
    key ∈ (view.resolve commit).files ↔ i ∈ commit.files := by
  rw [resolve, ExtTreeSet.mem_ofList, contains_iff_mem]
  exact place_unique known

theorem mem_inputs :
    key ∈ (view.resolve commit).inputs ↔ i ∈ commit.inputs := by
  rw [resolve, ExtTreeSet.mem_ofList, contains_iff_mem]
  exact place_unique known

theorem mem_all :
    i ∈ (splitStates view files inputs).all ↔ view.content.FileState key := by
  simp [splitStates, Content.FileState, content, mem_files known]

theorem mem_retained :
    i ∈ (splitStates view files inputs).retained ↔ view.content.KeptState files inputs key := by
  simp only [splitStates, ExtTreeSet.mem_ofList, contains_iff_mem, mem_append,
    mem_flatMap, mem_filter]
  constructor
  · rintro (⟨commit, ⟨mem, kept⟩, place⟩ | ⟨commit, ⟨mem, kept⟩, place⟩)
    · exact ⟨view.resolve commit, mem_map_of_mem mem, .inl ⟨kept, (mem_files known).2 place⟩⟩
    · exact ⟨view.resolve commit, mem_map_of_mem mem, .inr ⟨kept, (mem_inputs known).2 place⟩⟩
  · rintro ⟨_, listed, kept⟩
    obtain ⟨commit, mem, rfl⟩ := mem_map.1 listed
    rcases kept with ⟨kept, named⟩ | ⟨kept, named⟩
    · exact .inl ⟨commit, ⟨mem, kept⟩, (mem_files known).1 named⟩
    · exact .inr ⟨commit, ⟨mem, kept⟩, (mem_inputs known).1 named⟩

end Known

theorem mem_released : i ∈ (splitStates view files inputs).released ↔
    i ∈ (splitStates view files inputs).all ∧ i ∉ (splitStates view files inputs).retained := by
  simp [splitStates]

theorem mem_releasedPlaces (known : view.states[i]? = some key) :
    i ∈ (splitStates view files inputs).released ↔ view.content.ReleasedState files inputs key := by
  rw [mem_released, mem_all known, mem_retained known, Content.ReleasedState]

theorem place_lt (mem : i ∈ (splitStates view files inputs).all ∨
    i ∈ (splitStates view files inputs).retained) : i < view.states.length := by
  simp only [splitStates, ExtTreeSet.mem_ofList, contains_iff_mem, mem_append,
    mem_flatMap, mem_filter] at mem
  rcases mem with ⟨commit, mem, place⟩ | ⟨commit, ⟨mem, -⟩, place⟩ | ⟨commit, ⟨mem, -⟩, place⟩
  · exact view.within commit mem i (mem_append_left _ place)
  · exact view.within commit mem i (mem_append_left _ place)
  · exact view.within commit mem i (mem_append_right _ place)

theorem exists_state (lt : i < view.states.length) : ∃ key, view.states[i]? = some key :=
  ⟨view.states[i], getElem?_eq_getElem lt⟩

end Places

section Released

variable {policy : Policy} {decision : Decision} {files inputs : Address → Bool}

theorem mem_states_of_names {commit : Resolved} (mem : commit ∈ view.content.commits)
    (named : commit.Names key) : key ∈ view.states := by
  obtain ⟨stored, -, rfl⟩ := mem_map.1 mem
  simp only [Resolved.Names, resolve, ExtTreeSet.mem_ofList, contains_iff_mem,
    fileStates, inputStates, mem_filterMap] at named
  rcases named with ⟨i, -, known⟩ | ⟨i, -, known⟩ <;> exact mem_of_getElem? known

theorem exists_place_of_fileState (isFile : view.content.FileState key) :
    ∃ i : Nat, view.states[i]? = some key := by
  obtain ⟨commit, mem, named⟩ := isFile
  exact mem_iff_getElem?.1 (mem_states_of_names mem (.inl named))

theorem exists_place_of_keptState (kept : view.content.KeptState files inputs key) :
    ∃ i : Nat, view.states[i]? = some key := by
  obtain ⟨commit, mem, ⟨-, named⟩ | ⟨-, named⟩⟩ := kept
  · exact mem_iff_getElem?.1 (mem_states_of_names mem (.inl named))
  · exact mem_iff_getElem?.1 (mem_states_of_names mem (.inr named))

theorem mem_releasedStates :
    key ∈ decision.releasedStates view policy ↔
      view.content.ReleasedState (decision.keepsFiles policy) (decision.keepsInputs policy) key := by
  rw [Decision.releasedStates, mem_sortBy]
  constructor
  · intro mem
    obtain ⟨i, released, known⟩ := mem_filterMap.1 mem
    exact (mem_releasedPlaces known).1 released
  · intro released
    obtain ⟨i, known⟩ := exists_place_of_fileState released.1
    exact mem_filterMap.2 ⟨i, (mem_releasedPlaces known).2 released, known⟩

theorem releasedPlaces_nodup : (splitStates view files inputs).released.Nodup := by
  refine List.Nodup.filter _ (ExtTreeSet.distinct_toList.imp fun apart same => ?_)
  exact apart (Std.compare_eq_iff_eq.2 same)

theorem length_releasedStates :
    (decision.releasedStates view policy).length = (decision.states view policy).released.length := by
  rw [Decision.releasedStates, (sortBy_perm _ _).length_eq, filterMap_length_eq_length]
  intro i mem
  simpa using place_lt (.inl (mem_released.1 mem).1)

theorem releasedStates_nodup : (decision.releasedStates view policy).Nodup := by
  rw [Decision.releasedStates, (sortBy_perm _ _).nodup_iff]
  refine List.Nodup.filterMap (fun i j key here there => ?_) releasedPlaces_nodup
  exact (getElem?_inj (List.getElem?_eq_some_iff.1 here).1 view.interned).1
    ((Option.mem_def.1 here).trans (Option.mem_def.1 there).symm)

theorem objectOf_place (known : view.states[i]? = some key) :
    view.objectOf key = view.stateObjects[i]? := by
  have mem := mem_of_getElem? known
  have place : view.states.idxOf key = i := by
    have lt := idxOf_lt_length_of_mem mem
    refine (getElem?_inj lt view.interned).1 ?_
    rw [known, getElem?_eq_getElem lt, getElem_idxOf]
  rw [objectOf, if_pos mem, place]

theorem measured_place (known : view.states[i]? = some key) :
    i ∈ view.stateObjects ↔ (view.content.objects key).isSome := by
  rw [ExtTreeMap.mem_iff_isSome_getElem?, ← objectOf_place known]
  rfl

theorem isMeasured_iff :
    isMeasured view (splitStates view files inputs) = true ↔
      ∀ key, view.content.FileState key → (view.content.objects key).isSome := by
  have split : isMeasured view (splitStates view files inputs) = true ↔
      ∀ i ∈ (splitStates view files inputs).all, i ∈ view.stateObjects := by
    simp only [isMeasured, Bool.and_eq_true, all_eq_true, decide_eq_true_eq, mem_released,
      mem_filter, ExtTreeSet.mem_toList]
    constructor
    · intro measured i mem
      by_cases kept : i ∈ (splitStates view files inputs).retained
      · exact measured.2 i ⟨kept, mem⟩
      · exact measured.1 i ⟨mem, kept⟩
    · exact fun measured => ⟨fun i mem => measured i mem.1, fun i mem => measured i mem.2⟩
  rw [split]
  constructor
  · intro measured key isFile
    obtain ⟨i, known⟩ := exists_place_of_fileState isFile
    exact (measured_place known).1 (measured i ((mem_all known).2 isFile))
  · intro measured i mem
    obtain ⟨key, known⟩ := exists_state (place_lt (.inl mem))
    exact (measured_place known).2 (measured key ((mem_all known).1 mem))

end Released

section Objects

variable {children : List (List Nat)} {files inputs : Address → Bool}

theorem walkFrom_walked (children : List (List Nat)) (known roots : List Nat) :
    Walking (childrenOf children) known roots [] (walkFrom children known roots) := by
  have all : (List.range children.length).map (fun object => (childrenOf children object).length) =
      children.map List.length := by
    refine ext_getElem (by simp) fun i _ lt => ?_
    have inside : i < children.length := by simpa using lt
    simp [childrenOf, inside]
  refine walk_walked (List.range children.length) (fun object some => ?_) ?_ ?_
  · rw [mem_range]
    by_contra beyond
    exact some (by rw [childrenOf, getElem?_eq_none (Nat.le_of_not_lt beyond)]; rfl)
  · exact ⟨nodup_nil, by simp, fun object mem => ⟨object, by simpa using mem, .refl⟩, by simp,
      fun root mem => .inr (.inr (mem_reverse.2 mem))⟩
  · have fewer := sum_filter_le (p := fun _ => true)
      (q := fun object => decide (object ∉ known ∧ object ∉ ([] : List Nat)))
      (fun object => (childrenOf children object).length) (l := List.range children.length) (by simp)
    rw [filter_true, all] at fewer
    simp only [Worklist.visitsLeft, length_reverse]
    omega

theorem reached_roots (states : StateKey → Prop) (within : ∀ i ∈ places, i < view.states.length)
    (listed : ∀ i key, view.states[i]? = some key → (i ∈ places ↔ states key))
    (placed : ∀ key, states key → ∃ i : Nat, view.states[i]? = some key) :
    Reaches (childrenOf children) (places.filterMap (view.stateObjects[·]?)) object ↔
      view.content.Reached children states object := by
  constructor
  · rintro ⟨root, mem, path⟩
    obtain ⟨i, inPlaces, isRoot⟩ := mem_filterMap.1 mem
    obtain ⟨key, known⟩ := exists_state (within i inPlaces)
    exact ⟨key, root, (listed i key known).1 inPlaces, (objectOf_place known).trans isRoot, path⟩
  · rintro ⟨key, root, isState, isRoot, path⟩
    obtain ⟨i, known⟩ := placed key isState
    exact ⟨root, mem_filterMap.2 ⟨i, (listed i key known).2 isState,
      (objectOf_place known).symm.trans isRoot⟩, path⟩

theorem releasedObjects_nodup : (releasedObjects view (splitStates view files inputs)).Nodup :=
  (walkFrom_walked _ _ _).nodup

theorem mem_releasedObjects : object ∈ releasedObjects view (splitStates view files inputs) ↔
      view.content.Reached view.objects.children (view.content.ReleasedState files inputs) object ∧
      ¬ view.content.Reached view.objects.children (view.content.KeptState files inputs) object := by
  have kept := walkFrom_walked view.objects.children []
    ((splitStates view files inputs).retained.toList.filterMap (view.stateObjects[·]?))
  have reached := kept.mem_iff (by simp)
  rw [releasedObjects, (walkFrom_walked _ _ _).mem_iff fun node mem child edge => ?_]
  · rw [reached, reached_roots (view.content.ReleasedState files inputs)
      (fun i mem => place_lt (.inl (mem_released.1 mem).1)) (fun i key known => mem_releasedPlaces known)
      (fun key released => exists_place_of_fileState released.1),
      reached_roots (view.content.KeptState files inputs)
      (fun i mem => place_lt (.inr (ExtTreeSet.mem_toList.1 mem)))
      (fun i key known => ExtTreeSet.mem_toList.trans (mem_retained known))
      (fun key kept => exists_place_of_keptState kept)]
    simp
  · obtain ⟨⟨root, isRoot, path⟩, -⟩ := (reached node).1 mem
    exact (reached child).2 ⟨⟨root, isRoot, path.tail edge⟩, by simp⟩

end Objects

end Dynodoc.Horizon
