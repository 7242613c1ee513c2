import Dynodoc.Horizon.Evidence

/-! A plan depends on what a view was told, not on the order in which it was told. -/
namespace Dynodoc.Horizon
open Std (ExtTreeMap ExtTreeSet)
open Checkpoint (Address)
open Log (Hashing Uuid)
open Loop OrderedMap Sorted DepthFirst List HistoryView Content Call SkeletonEntry Option

variable {options : PlanOptions} {view : HistoryView}

def outcome (env : Hashing) (project : Uuid) (objects : ObjectGraph) (calls : List Call)
    (policy : Policy) (options : PlanOptions) : Except Error HorizonPlan := do
  let view ← build project objects calls
  plan env view policy options

theorem checkInput_eq_ok :
    checkInput view options = .ok () ↔ options.list ≤ 1000 ∧ view.content.holds.length ≤ 128 ∧
      view.objects.sizes.length = view.objects.children.length ∧
      (∀ below ∈ view.objects.children, ∀ child ∈ below, child < view.objects.sizes.length) ∧
      ∀ key object, view.content.objects key = some object → object < view.objects.sizes.length := by
  have inside : (∀ entry ∈ view.stateObjects.toList, entry.2 < view.objects.sizes.length) ↔
      ∀ key object, view.content.objects key = some object → object < view.objects.sizes.length := by
    constructor
    · intro all key object found
      have known : key ∈ view.states := by
        by_contra new
        rw [show view.content.objects = view.objectOf from rfl, objectOf, if_neg new] at found
        contradiction
      obtain ⟨i, place⟩ := mem_iff_getElem?.1 known
      have stored : view.stateObjects[i]? = some object := (objectOf_place place).symm.trans found
      exact all (i, object) (ExtTreeMap.mem_toList_iff_getElem?_eq_some.2 stored)
    · rintro all ⟨i, object⟩ mem
      have stored := ExtTreeMap.mem_toList_iff_getElem?_eq_some.1 mem
      obtain ⟨key, place⟩ := exists_state (view.placed i
        (of_getElem?_eq_some stored))
      exact all key object ((objectOf_place place).trans stored)
  rw [← inside, checkInput]
  split
  · simp only [reduceCtorEq, false_iff]
    omega
  · split
    · simp only [reduceCtorEq, false_iff, content]
      omega
    · split
      · rename_i bad
        grind
      · rename_i short few fine
        simp only [content]
        grind

structure SameContent (view view' : HistoryView) : Prop where
  project : view'.project = view.project
  objects : view'.objects = view.objects
  branches : view'.content.branches.Perm view.content.branches
  commits : ∀ commit, commit ∈ view'.content.commits ↔ commit ∈ view.content.commits
  skeleton : view'.content.skeleton.Perm view.content.skeleton
  holds : ∀ hold, hold ∈ view'.content.holds ↔ hold ∈ view.content.holds
  few : view.content.holds.length ≤ 128 → view'.content.holds.length ≤ 128
  roots : view'.content.objects = view.content.objects

namespace SameContent

variable {view' : HistoryView} (same : SameContent view view')
variable (files inputs : Address → Bool)

include same

theorem bodies : view'.bodies = view.bodies := by
  refine ExtTreeMap.ext_getElem? fun a => ext fun node => ?_
  rw [mem_bodies_content, mem_bodies_content]
  simp [same.commits]

theorem released (distinct : (view.skeleton.map address).Nodup) :
    view'.released = view.released := by
  have distinct' := (same.skeleton.map address).nodup_iff.2 distinct
  refine ExtTreeMap.ext_getElem? fun a => ext fun entry => ?_
  rw [mem_released_iff distinct', mem_released_iff distinct]
  exact and_congr_left' same.skeleton.mem_iff

theorem built {graph : Graph} (built : graph.Built view) : graph.Built view' := by
  have released := same.released built.distinct
  refine ⟨built.bodies.trans same.bodies.symm, built.released.trans released.symm,
    (same.skeleton.map address).nodup_iff.2 built.distinct, ?_, ?_, ?_, ?_⟩
  · intro entry mem
    rw [same.bodies]
    exact built.apart entry (same.skeleton.mem_iff.1 mem)
  · rw [same.bodies, released]
    exact built.known
  · rw [same.bodies, released]
    exact built.heights
  · intro commit mem height stored
    obtain ⟨known, inView, resolved⟩ := mem_map.1 ((same.commits _).1 (mem_map_of_mem mem))
    have node : known.toCommitNode = commit.toCommitNode := congrArg Resolved.node resolved
    have checked := built.checked known inView height
    rw [node] at checked
    exact checked stored

theorem heads : sortBy (compareOn HeadRef.branch) view'.branches =
    sortBy (compareOn HeadRef.branch) view.branches := by
  refine sortBy_eq_of_perm same.branches fun a memA b memB tie => ?_
  exact inj_on_of_nodup_map view'.named memA memB (Std.LawfulEqCmp.eq_of_compare tie)

theorem held : heldOf view' = heldOf view := by
  refine sortBy_eq_of_perm ?_ fun a _ b _ tie => ?_
  · rw [perm_ext_iff_of_nodup (nodup_dedup _) (nodup_dedup _)]
    intro hold
    rw [mem_dedup, mem_dedup]
    exact same.holds hold
  · obtain ⟨commit, reason⟩ := eq_of_compareLex tie
    cases a
    cases b
    simp_all

variable {policy : Policy} {decision : Decision}

def made (made : decision.Made view policy options) : decision.Made view' policy options where
  cutoff := made.cutoff
  heads := made.heads
  forks := made.forks
  evidence := made.evidence
  input := by
    obtain ⟨short, few, sizes, children, roots⟩ := checkInput_eq_ok.1 made.input
    rw [checkInput_eq_ok, same.objects, same.roots]
    exact ⟨short, same.few few, sizes, children, roots⟩
  window := made.window
  built := same.built made.built
  sorted := made.sorted.trans same.heads.symm
  headed := made.headed
  forked := made.forked
  primary := by rw [same.held, made.primary]
  proven := made.proven
  kept := made.kept
  warned := by rw [same.held, made.warned]

theorem fileState (key : StateKey) : view'.content.FileState key ↔ view.content.FileState key := by
  simp [Content.FileState, same.commits]

theorem keptState : view'.content.KeptState files inputs = view.content.KeptState files inputs := by
  funext key
  simp [Content.KeptState, same.commits]

theorem releasedState :
    view'.content.ReleasedState files inputs = view.content.ReleasedState files inputs := by
  funext key
  rw [Content.ReleasedState, Content.ReleasedState, same.fileState, same.keptState]

theorem releasedStates : decision.releasedStates view' policy = decision.releasedStates view policy := by
  have perm : (decision.releasedStates view' policy).Perm (decision.releasedStates view policy) := by
    rw [perm_ext_iff_of_nodup releasedStates_nodup releasedStates_nodup]
    intro key
    rw [mem_releasedStates, mem_releasedStates, same.releasedState]
  exact sortBy_eq_of_perm ((sortBy_perm _ _).symm.trans (perm.trans (sortBy_perm _ _)))
    fun a _ b _ tie => Std.LawfulEqCmp.eq_of_compare tie

theorem measured : isMeasured view' (splitStates view' files inputs) =
      isMeasured view (splitStates view files inputs) := by
  rw [Bool.eq_iff_iff, isMeasured_iff, isMeasured_iff, same.roots]
  simp [same.fileState]

theorem releasedObjects : (Horizon.releasedObjects view' (splitStates view' files inputs)).Perm
      (Horizon.releasedObjects view (splitStates view files inputs)) := by
  rw [perm_ext_iff_of_nodup releasedObjects_nodup releasedObjects_nodup]
  intro object
  rw [mem_releasedObjects, mem_releasedObjects, same.keptState, same.releasedState]
  simp [Content.Reached, same.objects, same.roots]

theorem counts : decision.counts view' policy = decision.counts view policy := by
  have objects := same.releasedObjects (decision.keepsFiles policy) (decision.keepsInputs policy)
  have states : (decision.states view' policy).released.length =
      (decision.states view policy).released.length := by
    rw [← length_releasedStates, ← length_releasedStates, same.releasedStates]
  rw [Decision.counts, countsOf, states, same.objects]
  refine Counts.mk.injEq .. ▸ ⟨rfl, rfl, rfl, objects.length_eq, ?_⟩
  exact congrArg (· % 2 ^ 64) (objects.map _).sum_nat

theorem describe (env : Hashing) (roots : PlanRoots) (digest : Address) :
    decision.describe view' policy options env roots digest =
      decision.describe view policy options env roots digest := by
  rw [Decision.describe, Decision.describe, same.project, same.counts, same.held, same.releasedStates,
    Decision.states, Decision.states, same.measured]

theorem plan_eq {env : Hashing} {result : HorizonPlan}
    (planned : plan env view policy options = .ok result) :
    plan env view' policy options = .ok result := by
  obtain ⟨decision, roots, digest, ⟨made⟩, counts, rooted, digested, rfl⟩ := plan_eq_ok.1 planned
  refine plan_eq_ok.2 ⟨decision, roots, digest, ⟨same.made made⟩, ?_, ?_, digested, ?_⟩
  · rw [same.counts, counts]
  · rw [same.releasedStates, rooted]
  · rw [same.describe]

end SameContent

def Call.isStateObject : Call → Bool
  | .stateObject _ _ => true
  | _ => false

def Call.isCommit : Call → Bool
  | .commit .. => true
  | _ => false

def Call.address? : Call → Option Address
  | .commit address .. => some address
  | _ => none

/-- No commit is added once an object has been declared. -/
def ObjectsLast (calls : List Call) : Prop :=
  calls.Pairwise fun earlier later => earlier.isStateObject = true → later.isCommit = false

/-- Calls that add the same commit are the same. -/
def SameCommits (calls : List Call) : Prop :=
  ∀ first ∈ calls, ∀ second ∈ calls, first.isCommit = true → first.address? = second.address? →
    first = second

/-- Calls that declare the object of the same state declare the same object. -/
def SameObjects (calls : List Call) : Prop :=
  ∀ state object object', .stateObject state object ∈ calls → .stateObject state object' ∈ calls →
    object = object'

/-- The same calls in another order. Commits, holds and objects may be repeated; the holds are
limited with their repeats. -/
structure Reordered (calls calls' : List Call) : Prop where
  same : ∀ call, call ∈ calls' ↔ call ∈ calls
  branches : (calls'.filterMap branch?).Perm (calls.filterMap branch?)
  skeleton : (calls'.filterMap skeleton?).Perm (calls.filterMap skeleton?)
  few : (calls.filterMap hold?).length ≤ 128 → (calls'.filterMap hold?).length ≤ 128

section Runs

variable {calls calls' : List Call}

theorem of_commit? {call : Call} {commit : Resolved} (found : call.commit? = some commit) :
    call.isCommit = true ∧ call.address? = some commit.node.address := by
  cases call with
  | commit => cases found; exact ⟨rfl, rfl⟩
  | _ => simp [commit?] at found

theorem mem_run_commits (agree : SameCommits calls) (commit : Resolved) :
    commit ∈ (run calls).commits ↔ ∃ call ∈ calls, call.commit? = some commit := by
  rw [run, run_commits, mem_foldl_addResolved]
  · simp [empty]
  · intro a memA b memB same
    simp only [empty, nil_append, mem_filterMap] at memA memB
    obtain ⟨first, memFirst, isFirst⟩ := memA
    obtain ⟨second, memSecond, isSecond⟩ := memB
    have addresses : first.address? = second.address? := by
      rw [(of_commit? isFirst).2, (of_commit? isSecond).2, same]
    rw [agree first memFirst second memSecond (of_commit? isFirst).1 addresses, isSecond] at isFirst
    exact (some.inj isFirst).symm

theorem run_concat (calls : List Call) (call : Call) :
    run (calls ++ [call]) = (run calls).call call := by
  rw [run, foldl_append]
  rfl

/-- Objects that are declared last belong to the states of all commits. -/
theorem run_objects (last : ObjectsLast calls) (agree : SameObjects calls) (key : StateKey)
    (object : Nat) : (Content.run calls).objects key = some object ↔
      (Content.run calls).Knows key ∧ .stateObject key object ∈ calls := by
  induction calls using List.reverseRecOn generalizing object with
  | nil => simp [Content.run, Content.empty]
  | append_singleton calls call ih =>
    obtain ⟨last, -, before⟩ := pairwise_append.1 last
    have ih := ih last (fun state object object' first second =>
      agree state object object' (mem_append_left _ first) (mem_append_left _ second))
    rw [run_concat]
    cases call with
    | commit address commit bytes storedHeight =>
      have undeclared (object : Nat) : .stateObject key object ∉ calls := fun mem => by
        have := before _ mem _ (mem_singleton_self _) rfl
        contradiction
      simp [Content.call, ih, undeclared]
    | stateObject state declared =>
      rw [Content.call]
      by_cases known : (Content.run calls).Knows state
      · rw [if_pos known]
        by_cases here : key = state
        · subst here
          simp only [if_true, some.injEq]
          refine ⟨fun same => ⟨known, by simp [same]⟩, fun both => ?_⟩
          exact agree key declared object (by simp) both.2
        · dsimp only
          rw [if_neg here, ih object]
          simp [here, Content.Knows]
      · rw [if_neg known, ih object]
        refine and_congr_right fun isKnown => ?_
        have other : key ≠ state := fun same => known (same ▸ isKnown)
        simp [other]
    | _ => simp [Content.call, ih object, Content.Knows]

theorem sameContent_of_reordered {project : Uuid} {objects : ObjectGraph} {view' : HistoryView}
    (reordered : Reordered calls calls') (last : ObjectsLast calls) (last' : ObjectsLast calls')
    (commits : SameCommits calls) (roots : SameObjects calls)
    (told : Describes project objects calls view) (told' : Describes project objects calls' view') :
    SameContent view view' := by
  have commits' : SameCommits calls' := fun a memA b memB =>
    commits a ((reordered.same a).1 memA) b ((reordered.same b).1 memB)
  have roots' : SameObjects calls' := fun state object object' first second =>
    roots state object object' ((reordered.same _).1 first) ((reordered.same _).1 second)
  have stored (commit : Resolved) :
      commit ∈ (run calls').commits ↔ commit ∈ (run calls).commits := by
    rw [mem_run_commits commits', mem_run_commits commits]
    simp [reordered.same]
  refine ⟨told'.project.trans told.project.symm, told'.objects.trans told.objects.symm, ?_, ?_, ?_, ?_,
    ?_, ?_⟩
  all_goals rw [told.content, told'.content]
  · rw [run_branches, run_branches]
    exact reordered.branches
  · exact stored
  · rw [run_skeleton, run_skeleton]
    exact reordered.skeleton
  · intro hold
    simp [run_holds, reordered.same]
  · rw [run_holds, run_holds]
    exact reordered.few
  · refine funext fun key => ext fun object => ?_
    rw [run_objects last' roots', run_objects last roots, reordered.same]
    simp [Content.Knows, stored]

end Runs

/-- The order of the calls that build a view does not matter to its plan. -/
theorem plan_independent_of_order (env : Hashing) (project : Uuid) (objects : ObjectGraph)
    (calls calls' : List Call) (policy : Policy) (options : PlanOptions) (result : HorizonPlan)
    (reordered : Reordered calls calls') (last : ObjectsLast calls) (last' : ObjectsLast calls')
    (commits : SameCommits calls) (roots : SameObjects calls)
    (planned : outcome env project objects calls policy options = .ok result) :
    outcome env project objects calls' policy options = .ok result := by
  obtain ⟨view, built, planned⟩ := bind_eq_ok.1 planned
  obtain ⟨valid, distinct⟩ := build_ok_iff.1 ⟨view, built⟩
  have built' : ∃ view', build project objects calls' = .ok view' :=
    build_ok_iff.2 ⟨fun call mem => valid call ((reordered.same call).1 mem),
      (reordered.branches.map HeadRef.branch).nodup_iff.2 distinct⟩
  obtain ⟨view', built'⟩ := built'
  have same := sameContent_of_reordered reordered last last' commits roots (describes_of_build built)
    (describes_of_build built')
  exact bind_eq_ok.2 ⟨view', built', same.plan_eq planned⟩

def smallState (n : UInt8) : StateKey := ⟨smallUuid 1, smallAddress n⟩

def twoObjects : ObjectGraph := ⟨[10, 20], [[], []]⟩

def smallOutcome (calls : List Call) : Except Error HorizonPlan :=
  outcome Log.sumHashing (smallUuid 0) twoObjects calls (smallPolicy .history 1) ⟨none, 10⟩

theorem sameCommits_of_distinct {calls : List Call}
    (distinct : calls.Pairwise fun a b => a.address? = b.address? → a.address? = none) :
    SameCommits calls := by
  intro first memFirst second memSecond isCommit same
  by_contra apart
  have symmetric : Std.Symm fun a b : Call => a.address? = b.address? → a.address? = none :=
    ⟨fun a b noTie tie => tie.trans (noTie tie.symm)⟩
  have none := distinct.forall memFirst memSecond apart same
  cases first <;> simp_all [Call.isCommit, Call.address?]

/-- The later commit comes first, one of the commits is added twice, and so is the hold. -/
theorem shuffled_calls_give_same_plan :
    let hold := Call.hold ⟨smallAddress 2, "audit"⟩
    let first := [smallCommit 1 1 [] none, smallCommit 2 1 [1] none, smallCommit 3 1 [2] none, hold,
      smallHead "main" 3, .stateObject (smallState 1) 0, .stateObject (smallState 2) 1]
    let second := [smallHead "main" 3, smallCommit 3 1 [2] none, smallCommit 1 1 [] none,
      smallCommit 3 1 [2] none, smallCommit 2 1 [1] none, .stateObject (smallState 2) 1, hold,
      .stateObject (smallState 1) 0, hold]
    ∃ result, smallOutcome first = .ok result ∧ smallOutcome second = .ok result := by
  intro hold first second
  obtain ⟨result, found⟩ := isSome_iff_exists.1
    (show (smallOutcome first).toOption.isSome by decide +kernel)
  have planned := toOption_eq_some.1 found
  have reordered : Reordered first second := by
    refine ⟨fun call => ?_, .refl _, .refl _, fun _ => by decide +kernel⟩
    simp only [first, second, mem_cons, not_mem_nil, or_false]
    tauto
  have last : ObjectsLast first := by
    rw [ObjectsLast]
    decide +kernel
  have last' : ObjectsLast second := by
    rw [ObjectsLast]
    decide +kernel
  have commits : SameCommits first := sameCommits_of_distinct (by decide +kernel)
  have roots : SameObjects first := by
    have apart : smallState 1 ≠ smallState 2 := by decide
    intro state object object' declared again
    simp only [first, hold, smallCommit, smallHead, mem_cons, reduceCtorEq, false_or,
      stateObject.injEq, not_mem_nil, or_false] at declared again
    grind
  exact ⟨result, planned, plan_independent_of_order _ _ _ first second _ _ result reordered last last'
    commits roots planned⟩

/-- Two objects for one state: the last call decides which is released. -/
theorem plan_depends_on_order :
    ¬ ∀ (env : Hashing) (project : Uuid) (objects : ObjectGraph) (calls calls' : List Call)
      (policy : Policy) (options : PlanOptions) (result : HorizonPlan),
      calls'.Perm calls → ObjectsLast calls → ObjectsLast calls' → SameCommits calls →
      outcome env project objects calls policy options = .ok result →
      outcome env project objects calls' policy options = .ok result := by
  intro claim
  let told (one other : Nat) : List Call := [smallCommit 1 1 [] none, smallCommit 2 1 [1] none,
    smallHead "main" 2, .stateObject (smallState 1) one, .stateObject (smallState 1) other]
  obtain ⟨result, found⟩ := isSome_iff_exists.1
    (show (smallOutcome (told 0 1)).toOption.isSome by decide +kernel)
  have again : smallOutcome (told 1 0) = .ok result :=
    claim Log.sumHashing (smallUuid 0) twoObjects (told 0 1) (told 1 0)
    (smallPolicy .history 1) ⟨none, 10⟩ result
    (.cons _ (.cons _ (.cons _ (.swap _ _ _)))) (by rw [ObjectsLast]; decide +kernel)
    (by rw [ObjectsLast]; decide +kernel) (sameCommits_of_distinct (by decide +kernel))
    (toOption_eq_some.1 found)
  have differ : (smallOutcome (told 0 1)).toOption.map (·.counts) ≠
      (smallOutcome (told 1 0)).toOption.map (·.counts) := by decide +kernel
  rw [found, toOption_eq_some.2 again] at differ
  exact differ rfl

end Dynodoc.Horizon
