import Dynodoc.Horizon.Evidence

/-! What the object counts of a plan say. A released object is one that some released state
needs and no state that stays. -/
namespace Dynodoc.Horizon
open Std (ExtTreeMap ExtTreeSet)
open Checkpoint (Address)
open Log (Hashing)
open Loop OrderedMap List HistoryView Option

def HorizonPlan.KeepsFiles (result : HorizonPlan) (a : Address) : Prop :=
  if result.tier = .history then a ∈ result.sets.retained
  else result.KeptForItself a ∨ (a, Reason.evidenceRecovery.label) ∈ result.sets.kept

def HorizonPlan.KeepsInputs (policy : Policy) (result : HorizonPlan) (a : Address) : Prop :=
  result.tier ≠ .history ∧ policy.protect.mergeInputs = .states ∧ result.KeptForItself a

namespace HistoryView

variable (view : HistoryView)

def RetainedState (policy : Policy) (result : HorizonPlan) (key : StateKey) : Prop :=
  ∃ commit ∈ view.commits, result.KeepsFiles commit.address ∧ key ∈ view.fileStates commit ∨
    result.KeepsInputs policy commit.address ∧ key ∈ view.inputStates commit

/-- The object is the root of a state, or below it. -/
def Needs (key : StateKey) (object : Nat) : Prop :=
  ∃ root, view.objectOf key = some root ∧
    Relation.ReflTransGen (fun parent child => child ∈ childrenOf view.objects.children parent)
      root object

def sizeOf (object : Nat) : Nat := view.objects.sizes[object]?.getD 0

end HistoryView

section Retained

variable {env : Hashing} {view : HistoryView} {policy : Policy} {options : PlanOptions}
  {decision : Decision} {result : HorizonPlan} {a : Address} {key : StateKey}

section Plan

variable (listed : result.sets.kept = decision.kept.toList.map fun entry => (entry.1, entry.2.label))
  (tier : result.tier = policy.tier)
include listed tier

theorem keepsFiles_iff (stay : result.sets.retained = (decision.split policy).retained) :
    result.KeepsFiles a ↔ decision.keepsFiles policy a = true := by
  unfold HorizonPlan.KeepsFiles Decision.keepsFiles keepsFiles
  rw [tier, stay]
  split
  · rw [decide_eq_true_eq]
  · simp only [HorizonPlan.KeptForItself, mem_kept_iff listed, Option.any_eq_true,
      Bool.or_eq_true, decide_eq_true_eq]
    constructor
    · rintro (⟨reason, own, kept⟩ | kept)
      · exact ⟨reason, kept, .inl own⟩
      · exact ⟨_, kept, .inr rfl⟩
    · rintro ⟨reason, kept, own | rfl⟩
      · exact .inl ⟨reason, own, kept⟩
      · exact .inr kept

theorem keepsInputs_iff (made : decision.Made view policy options) :
    result.KeepsInputs policy a ↔ decision.keepsInputs policy a = true := by
  unfold HorizonPlan.KeepsInputs Decision.keepsInputs keepsInputs
  rw [tier, keptForItself_iff result made listed]
  simp [and_assoc]

theorem retainedState_iff (made : decision.Made view policy options)
    (stay : result.sets.retained = (decision.split policy).retained) :
    view.RetainedState policy result key ↔
      view.content.KeptState (decision.keepsFiles policy) (decision.keepsInputs policy) key := by
  simp [HistoryView.RetainedState, Content.KeptState, content, keepsFiles_iff listed tier stay,
    keepsInputs_iff listed tier made, resolve]

end Plan

theorem reached_iff {states : StateKey → Prop} {object : Nat} :
    view.content.Reached view.objects.children states object ↔
      ∃ key, states key ∧ view.Needs key object := by
  constructor
  · rintro ⟨key, root, isState, isRoot, path⟩
    exact ⟨key, isState, root, isRoot, path⟩
  · rintro ⟨key, isState, root, isRoot, path⟩
    exact ⟨key, root, isState, isRoot, path⟩

end Retained

/-- The object counts of a plan that measured its states are those of the objects that some
released state needs and no retained one, however objects are shared and whatever cycles they
form. The total of the sizes is exact as long as it fits the number that holds it. -/
theorem released_objects_are_counted (env : Hashing) (view : HistoryView) (policy : Policy)
    (options : PlanOptions) (result : HorizonPlan)
    (planned : plan env view policy options = .ok result) (measured : result.objectsMeasured = true) :
    (∀ key ∈ result.sets.releasedStates, (view.objectOf key).isSome) ∧
    (∀ commit ∈ view.commits, ∀ key ∈ view.fileStates commit, (view.objectOf key).isSome) ∧
    ∃ objects : List Nat, objects.Nodup ∧
      (∀ object, object ∈ objects ↔ (∃ key ∈ result.sets.releasedStates, view.Needs key object) ∧
        ¬ ∃ key, view.RetainedState policy result key ∧ view.Needs key object) ∧
      result.counts.objectsReleased = objects.length ∧
      ((objects.map view.sizeOf).sum < 2 ^ 64 →
        result.counts.objectBytesReleased = (objects.map view.sizeOf).sum) := by
  obtain ⟨decision, roots, digest, ⟨made⟩, -, -, -, rfl⟩ := plan_eq_ok.1 planned
  have known := isMeasured_iff.1 (show isMeasured view (decision.states view policy) = true from measured)
  refine ⟨fun key released => known key (mem_releasedStates.1 released).1, ?_,
    releasedObjects view (decision.states view policy), releasedObjects_nodup, fun object => ?_, rfl,
    fun fits => Nat.mod_eq_of_lt fits⟩
  · intro commit mem key isFile
    exact known key ⟨view.resolve commit, mem_map_of_mem mem,
      ExtTreeSet.mem_ofList.2 (contains_iff_mem.2 isFile)⟩
  · rw [Decision.states, mem_releasedObjects, reached_iff, reached_iff]
    refine and_congr (exists_congr fun key => and_congr_left' ?_)
      (not_congr (exists_congr fun key => and_congr_left' ?_))
    · exact mem_releasedStates.symm
    · exact (retainedState_iff rfl rfl made rfl).symm

def rowOfThree : List Call :=
  [smallCommit 1 1 [] none, smallCommit 2 1 [1] none, smallCommit 3 1 [2] none, smallHead "main" 3,
    .stateObject ⟨smallUuid 1, smallAddress 1⟩ 0, .stateObject ⟨smallUuid 1, smallAddress 2⟩ 1,
    .stateObject ⟨smallUuid 1, smallAddress 3⟩ 2]

def rowView (objects : ObjectGraph) : HistoryView :=
  ((build (smallUuid 0) objects rowOfThree).toOption).getD (.new (smallUuid 0) objects)

def rowPlan (objects : ObjectGraph) : Except Error HorizonPlan :=
  plan Log.sumHashing (rowView objects) (smallPolicy .history 1) ⟨none, 10⟩

/-- The objects of the first two states form a cycle, and share one with the third state. -/
def sharedObjects : ObjectGraph := ⟨[5, 7, 11, 13], [[1], [0, 3], [3], []]⟩

theorem shared_object_is_not_counted :
    ∃ result, rowPlan sharedObjects = .ok result ∧ result.counts.objectsReleased = 2 ∧
      result.counts.objectBytesReleased = 12 ∧ ∃ objects : List Nat, objects.Nodup ∧
      (∀ object, object ∈ objects ↔
        (∃ key ∈ result.sets.releasedStates, (rowView sharedObjects).Needs key object) ∧
        ¬ ∃ key, (rowView sharedObjects).RetainedState (smallPolicy .history 1) result key ∧
          (rowView sharedObjects).Needs key object) ∧
      result.counts.objectsReleased = objects.length := by
  obtain ⟨result, found, counts⟩ := map_eq_some_iff.1 (show ((rowPlan sharedObjects).toOption.map
      fun result => (result.objectsMeasured, result.counts.objectsReleased,
      result.counts.objectBytesReleased)) =
      some (true, 2, 12) by decide +kernel)
  rw [Prod.mk.injEq, Prod.mk.injEq] at counts
  have planned := toOption_eq_some.1 found
  obtain ⟨-, -, objects, nodup, exactly, counted, -⟩ :=
    released_objects_are_counted _ _ _ _ result planned counts.1
  exact ⟨result, planned, counts.2.1, counts.2.2, objects, nodup, exactly, counted⟩

/-- Two objects whose sizes add up to 2 ^ 64, and a small one that stays. -/
def hugeObjects : ObjectGraph := ⟨[2 ^ 63, 2 ^ 63, 1], [[], [], []]⟩

/-- The total of their sizes is counted as zero, which the check on the counts lets pass. -/
theorem huge_total_wraps :
    ¬ ∀ (env : Hashing) (view : HistoryView) (policy : Policy) (options : PlanOptions)
      (result : HorizonPlan), plan env view policy options = .ok result →
      result.objectsMeasured = true → ∃ objects : List Nat, objects.Nodup ∧
      (∀ object, object ∈ objects ↔ (∃ key ∈ result.sets.releasedStates, view.Needs key object) ∧
        ¬ ∃ key, view.RetainedState policy result key ∧ view.Needs key object) ∧
      result.counts.objectsReleased = objects.length ∧
      result.counts.objectBytesReleased = (objects.map view.sizeOf).sum := by
  intro claim
  obtain ⟨result, found, facts⟩ := map_eq_some_iff.1 (show ((rowPlan hugeObjects).toOption.map
      fun result => (result.objectsMeasured, result.counts.objectsReleased,
      result.counts.objectBytesReleased)) =
      some (true, 2, 0) by decide +kernel)
  rw [Prod.mk.injEq, Prod.mk.injEq] at facts
  obtain ⟨objects, -, exactly, counted, total⟩ :=
    claim _ _ _ _ result (toOption_eq_some.1 found) facts.1
  have flat : (rowView hugeObjects).objects.children = List.replicate 3 [] := by decide +kernel
  have roots : ∀ entry ∈ (rowView hugeObjects).stateObjects.toList,
      0 < (rowView hugeObjects).sizeOf entry.2 := by decide +kernel
  have positive : ∀ object ∈ objects, 0 < (rowView hugeObjects).sizeOf object := by
    intro object mem
    obtain ⟨⟨key, -, root, isRoot, path⟩, -⟩ := (exactly object).1 mem
    rcases path.cases_tail with rfl | ⟨parent, -, edge⟩
    · rw [objectOf, ite_none_right_eq_some] at isRoot
      exact roots (_, object) (ExtTreeMap.mem_toList_iff_getElem?_eq_some.2 isRoot.2)
    · rw [flat, childrenOf, getElem?_replicate] at edge
      split at edge <;> simp at edge
  rw [facts.2.2, eq_comm, List.sum_eq_zero_iff_forall_eq_nat] at total
  obtain ⟨object, mem⟩ := List.exists_mem_of_length_pos (show 0 < objects.length by omega)
  have zero := total _ (List.mem_map_of_mem mem)
  exact absurd (positive object mem) (by omega)

end Dynodoc.Horizon
