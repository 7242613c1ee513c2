import Dynodoc.Merge.Defects
import Dynodoc.Merge.NoLostUpdate
import Dynodoc.Merge.Termination

/-! A merge ends, and a merge without conflicts returns a valid tree. -/
namespace Dynodoc
open Std (ExtTreeMap ExtTreeSet)
open Loop Settles MaterializedNode Option Std.ExtTreeSet

variable {resolutions : Resolutions} {fuel : Nat} {s team : DocumentState}
  {acc : DocumentState × List Conflict} {buildEventPlan : Bool} {plan : MergePlan} {env : Externals}
  {id : NodeId} {conflicts : List Conflict}

namespace Merge
open Diff DocumentState

/-- What every stage of the merge keeps: nodes are stored under their ids, and a removed
choice is deleted or gone. -/
structure WellStored (s : DocumentState) : Prop where
  keyed : Keyed s.nodes
  removed : ∀ id ∈ s.removedChoices, ∀ n, s.nodes[id]? = some n → n.deleted = true

theorem WellStored.valid (sound : WellStored s)
    (searched : findDefect fuel team s = .ok none) : s.ValidTree := by
  obtain ⟨noCycle, noOrphan, noDuplicate⟩ := findDefect_none searched
  refine ⟨Forest.not_transGen_self (findParentCycle_none noCycle), ?_, ?_⟩
  · intro id n parent live inside
    obtain ⟨p, here⟩ := isSome_iff_exists.1 (findOrphan_none noOrphan live.1 live.2.1 inside)
    obtain ⟨stored, alive⟩ := filter_eq_some_iff.1 here
    refine ⟨p, stored, by simpa using alive, fun gone => ?_⟩
    simp [sound.removed parent gone p stored] at alive
  · intro id id' n n' name live live' used named named'
    exact findDuplicateVarName_none noDuplicate live.1 live'.1 live.2.1 live'.2.1 used named named'

theorem WellStored.insert (sound : WellStored s) {n : MaterializedNode}
    (own : n.id = id) (dead : id ∈ s.removedChoices → n.deleted = true) :
    WellStored { s with nodes := s.nodes.insert id n } := by
  refine ⟨sound.keyed.insert own, fun other gone m stored => ?_⟩
  simp only [OrderedMap.getElem?_insert] at stored
  split at stored
  · rename_i same
    cases stored
    exact dead (same ▸ gone)
  · exact sound.removed other gone m stored

/-- A node of a sound state may be replaced by one with its id that is not more alive. -/
theorem WellStored.replace (sound : WellStored s) {n m : MaterializedNode}
    (stored : s.nodes[id]? = some n) (own : m.id = n.id)
    (dead : n.deleted = true → m.deleted = true) : WellStored { s with nodes := s.nodes.insert id m } :=
  sound.insert (own.trans (sound.keyed id n stored)) fun gone =>
    dead (sound.removed id gone n stored)

variable {side : DocumentState}

theorem WellStored.relocate (sound : WellStored s) (id : NodeId) :
    WellStored (relocate side s id) := by
  simp only [Merge.relocate]
  split
  · rename_i stored
    exact sound.replace stored rfl fun dead => dead
  · exact sound

theorem WellStored.evict (sound : WellStored s) (id : NodeId) :
    WellStored (evict side s id) := by
  simp only [Merge.evict]
  split
  · exact sound
  · rename_i stored
    split
    · exact sound.replace stored rfl fun dead => dead
    · exact sound.replace stored rfl fun _ => rfl

theorem WellStored.foldl (sound : WellStored s) {f : DocumentState → NodeId → DocumentState}
    (keeps : ∀ s id, WellStored s → WellStored (f s id)) (ids : List NodeId) :
    WellStored (ids.foldl f s) := by
  induction ids generalizing s with
  | nil => exact sound
  | cons id ids ih => exact ih (keeps s id sound)

theorem WellStored.revive {side s' : DocumentState} (sound : WellStored s)
    (keyed : Keyed side.nodes) {start : Option NodeId}
    (revived : loop (reviveStep side) fuel (s, start) = .ok s') : WellStored s' := by
  refine loop_post (fun (state : DocumentState × Option NodeId) => WellStored state.1) WellStored ?_ ?_ ?_
    revived
  · rintro ⟨s, cursor⟩ next sound step
    simp only [reviveStep] at step
    repeat' split at step
    all_goals cases step
    rename_i id _ _ n found
    obtain ⟨stored, -⟩ := filter_eq_some_iff.1 found
    have less : WellStored { s with removedChoices := s.removedChoices.erase id } := by
      refine ⟨sound.keyed, fun other gone => sound.removed other ?_⟩
      exact (mem_erase.1 gone).2
    refine less.insert (keyed id n stored) fun gone => ?_
    simp at gone
  · rintro ⟨s, cursor⟩ result sound step
    simp only [reviveStep] at step
    repeat' split at step
    all_goals cases step
    all_goals exact sound
  · exact sound

theorem dropKids_subset {nodes nodes' : ExtTreeMap NodeId MaterializedNode} {stack : List NodeId}
    (dropped : loop (dropKids team) fuel (nodes, stack) = .ok nodes') (id : NodeId)
    (n : MaterializedNode) (left : nodes'[id]? = some n) : nodes[id]? = some n := by
  refine loop_post
    (fun (state : ExtTreeMap NodeId MaterializedNode × List NodeId) =>
      state.1[id]? = some n → nodes[id]? = some n)
    (fun result => result[id]? = some n → nodes[id]? = some n) ?_ ?_ ?_ dropped left
  · rintro ⟨nodes, stack⟩ next before step left
    cases stack with
    | nil => simp [dropKids] at step
    | cons parent stack =>
      cases step
      exact before (getElem?_erased left)
  · rintro ⟨nodes, stack⟩ result before step left
    cases stack with
    | nil =>
      cases step
      exact before left
    | cons parent stack => simp [dropKids] at step
  · exact fun left => left

variable {s' : DocumentState}

theorem WellStored.reject (sound : WellStored s)
    (keyed : Keyed team.nodes) (dead : liveNode team id = none)
    (rejected : rejectBlock fuel team s id = .ok s') : WellStored s' := by
  simp only [rejectBlock, bind_eq_ok] at rejected
  obtain ⟨nodes, dropped, rest⟩ := rejected
  cases rest
  have left : ∀ other n, nodes[other]? = some n → other ≠ id ∧ s.nodes[other]? = some n := by
    intro other n stored
    have before := dropKids_subset dropped other n stored
    simp only [OrderedMap.getElem?_erase] at before
    split at before
    · contradiction
    rename_i different
    exact ⟨different, before⟩
  have emptied : ∀ removed : ExtTreeSet NodeId,
      (∀ other ∈ removed, other ≠ id → other ∈ s.removedChoices) →
      WellStored { s with nodes := nodes, removedChoices := removed } := by
    intro removed within
    refine ⟨fun other n stored => sound.keyed other n (left other n stored).2, ?_⟩
    intro other gone n stored
    obtain ⟨different, before⟩ := left other n stored
    exact sound.removed other (within other gone different) n before
  have base := emptied
    (if team.removedChoices.contains id then s.removedChoices.insert id
      else s.removedChoices.erase id) <| by
    intro other gone different
    split at gone
    · rcases mem_insert.1 gone with same | old
      · exact absurd (Std.compare_eq_iff_eq.1 same).symm different
      · exact old
    · exact (mem_erase.1 gone).2
  cases stored : team.nodes[id]? with
  | none => exact base
  | some t =>
    refine base.insert (keyed id t stored) fun _ => ?_
    simpa [liveNode, stored] using dead

theorem renameBlock_shell (renamed : Option String) (team : Option MaterializedNode)
    (n : MaterializedNode) : (renameBlock renamed team n).id = n.id ∧
      (n.deleted = true → (renameBlock renamed team n).deleted = true) := by
  cases renamed <;> cases team <;> simp [renameBlock]

section Repairs

variable {base draft : DocumentState}

theorem repairOrphan_settles (side s : DocumentState) (parent : NodeId) :
    Settles fun fuel => repairOrphan fuel side s parent := by
  simp only [repairOrphan]
  split
  · exact reviveStep_settles side s parent
  · exact ok _

theorem resolve_settles (sound : WellStored s) (conflicts : List Conflict) (defect : Defect) :
    Settles fun fuel => defect.resolve fuel base team draft resolutions s conflicts := by
  cases defect with
  | orphan child parent =>
    exact (repairOrphan_settles _ s parent).map _
  | name id =>
    simp only [Defect.resolve, resolveDuplicateVarName]
    split
    · apply map
      exact bind (dropKids_settles team (sound.keyed.erase id) [id]) fun _ _ => ok _
    · split
      · exact ok _
      · exact ok _
  | cycle members suspect => exact ok _

variable (keyedTeam : Keyed team.nodes) (keyedDraft : Keyed draft.nodes)

include keyedTeam keyedDraft

theorem chosenSide_keyed (conflict : Conflict) (conflicts : List Conflict) :
    Keyed (chosenSide team draft resolutions conflict conflicts).1.nodes := by
  simp only [chosenSide]
  repeat' split
  all_goals assumption

theorem WellStored.resolve {defect : Defect}
    {r : Repaired} (sound : WellStored s)
    (resolved : defect.resolve fuel base team draft resolutions s conflicts = .ok r) :
    WellStored r.out := by
  cases defect with
  | orphan child parent =>
    simp only [Defect.resolve, resolveOrphan, map_eq_ok] at resolved
    obtain ⟨next, moved, rfl⟩ := resolved
    simp only [repairOrphan] at moved
    split at moved
    · exact sound.revive (chosenSide_keyed keyedTeam keyedDraft _ _) moved
    · cases moved
      exact sound.foldl (fun s id sound => sound.evict id) _
  | name id =>
    simp only [Defect.resolve, resolveDuplicateVarName] at resolved
    split at resolved
    · rename_i rejected
      obtain ⟨next, moved, rfl⟩ := map_eq_ok.1 resolved
      exact sound.reject keyedTeam (isNone_iff_eq_none.1 rejected.2) moved
    · split at resolved
      · cases resolved
        exact sound
      · rename_i n stored
        cases resolved
        obtain ⟨own, dead⟩ := renameBlock_shell _ _ n
        exact sound.replace stored own dead
  | cycle members suspect =>
    cases resolved
    simp only [resolveCycle, settle]
    split
    · exact (sound.relocate suspect).foldl (fun s id sound => sound.relocate id) _
    · exact sound.relocate suspect

theorem repair_settles (sound : WellStored s) (remaining : Nat) (conflicts : List Conflict)
    (seen : List RepairKey) :
    Settles fun fuel => repair fuel base team draft resolutions remaining s conflicts seen := by
  induction remaining generalizing s conflicts seen with
  | zero =>
    unfold repair
    refine bind (findDefect_settles team s) fun found _ => ?_
    cases found with
    | none => exact ok _
    | some defect => exact ok _
  | succ remaining ih =>
    unfold repair
    refine bind (findDefect_settles team s) fun found _ => ?_
    cases found with
    | none => exact ok _
    | some defect =>
      simp only
      split
      · exact ok _
      · refine bind (resolve_settles sound conflicts defect) fun r returned => ?_
        obtain ⟨fuel, resolved⟩ := returned
        split
        · exact ih (sound.resolve keyedTeam keyedDraft resolved) _ _
        · exact ok _

/-- The repair keeps the invariant, and without a conflict it leaves nothing to repair. -/
theorem WellStored.repair {remaining : Nat} {conflicts' : List Conflict}
    {seen : List RepairKey} (sound : WellStored s)
    (repaired : repair fuel base team draft resolutions remaining s conflicts seen =
      .ok (s', conflicts')) :
    WellStored s' ∧ (conflicts' = [] → findDefect fuel team s' = .ok none) := by
  induction remaining using Nat.strongRecOn generalizing s conflicts seen with
  | ind remaining ih =>
    obtain ⟨nothing, rfl, rfl⟩ | ⟨defect, found, ⟨rfl, rfl⟩ | ⟨r, less, rfl, resolved, later⟩⟩ :=
      repair_cases repaired
    · exact ⟨sound, fun _ => nothing⟩
    · exact ⟨sound, fun clean => absurd clean (reportOnce_ne_nil _ _)⟩
    · have next := sound.resolve keyedTeam keyedDraft resolved
      obtain ⟨unchanged, rfl, rfl⟩ | ⟨-, rest⟩ := later
      · refine ⟨next, fun clean => absurd clean ?_⟩
        -- A repair that changes nothing has reported a conflict.
        cases defect with
        | orphan child parent => exact (resolveOrphan_conflicts resolved).2 unchanged
        | name id =>
          have live := findDuplicateVarName_live sound.keyed (findDefect_name found)
          exact (resolveDuplicateVarName_conflicts resolved).2 live unchanged
        | cycle members suspect =>
          cases resolved
          exact (resolveCycle_conflicts _ _ _ _).2 unchanged
      · exact ih less (Nat.lt_succ_self _) next rest

end Repairs

theorem choose_node (id : NodeId) (nodeType : String) (b t d : Value) :
    (choose env resolutions ⟨id, nodeType, "$node"⟩ b t d).1 = t ∨
      (choose env resolutions ⟨id, nodeType, "$node"⟩ b t d).1 = d := by
  simp only [choose, select]
  have whole : mergeWhole env "$node" b t d = none := by simp [mergeWhole]
  repeat' split
  all_goals simp_all

variable {q : Progress Unit}

theorem nodeMerge_id {b t : Option MaterializedNode} {d n : MaterializedNode}
    (ofTeam : ∀ t', t = some t' → t'.id = id) (ofDraft : d.id = id)
    (merged : nodeMerge env resolutions buildEventPlan id b t d = .ok (some n, q)) : n.id = id := by
  simp only [nodeMerge, mergeNode] at merged
  split at merged
  · simp at merged
  split at merged
  · rw [pick_direct] at merged
    simp only [Except.ok.injEq, Prod.mk.injEq] at merged
    obtain ⟨picked, -⟩ := merged
    rcases choose_node id d.nodeType (nodeValue b) (nodeValue t) d.toJson with h | h
    · rw [h] at picked
      cases t with
      | none => simp [nodeValue, ofJson] at picked
      | some t =>
        rw [nodeValue, ofJson_toJson] at picked
        cases picked
        exact ofTeam _ rfl
    · rw [h, ofJson_toJson] at picked
      cases picked
      exact ofDraft
  · split at merged
    · obtain ⟨⟨m, q⟩, components, same⟩ := map_eq_ok.1 merged
      cases same
      exact (mergeComponents_merged components).nodeId.trans (ofTeam _ rfl)
    · contradiction

theorem WellStored.retainRemoved (keyed : Keyed s.nodes) : WellStored (retainRemoved s) := by
  refine ⟨keyed, fun id gone n stored => ?_⟩
  obtain ⟨-, deleted⟩ := mem_retainRemoved.1 gone
  change s.nodes[id]? = some n at stored
  rwa [stored, any_some] at deleted

section Plans

variable {base draft : DocumentState}

theorem diffForMerge_settles (base source target : DocumentState) (conflicts : List Conflict) :
    Settles fun fuel => diffForMerge env fuel base source target conflicts := by
  refine bind (diff_settles env source target) fun result _ => ?_
  cases result with
  | ok ops => exact ok _
  | error e => exact ok _

variable (keyedTeam : Keyed team.nodes)

include keyedTeam

theorem strictBlock_keyed (keyed : Keyed acc.1.nodes) (id : NodeId) :
    Keyed (strictBlock base team draft resolutions acc id).1.nodes := by
  simp only [strictBlock]
  split
  · exact keyed
  · rename_i t found
    obtain ⟨stored, -⟩ := filter_eq_some_iff.1 found
    split
    · exact keyed
    · split
      · exact keyed
      · exact keyed.insert (keyedTeam id t stored)

theorem foldl_strictBlock_keyed (keyed : Keyed acc.1.nodes) (ids : List NodeId) :
    Keyed (ids.foldl (strictBlock base team draft resolutions) acc).1.nodes := by
  induction ids generalizing acc with
  | nil => exact keyed
  | cons id ids ih => exact ih (strictBlock_keyed keyedTeam keyed id)

variable (keyedDraft : Keyed draft.nodes)

include keyedDraft

theorem mergeNodes_keyed {nodes : ExtTreeMap NodeId MaterializedNode}
    (merged : mergeNodes (direct env) resolutions buildEventPlan base team draft clear =
      .ok (nodes, q)) : Keyed nodes := by
  have points := mergeNodes_pointwise _ _ _ merged
  intro id n stored
  cases found : draft.nodes[id]? with
  | none =>
    rw [points.kept id fun d mem => by
      simp [found] at mem] at stored
    exact keyedTeam id n stored
  | some d =>
    obtain ⟨m, own, alone, result, -⟩ :=
      points.merged id d (ExtTreeMap.mem_toList_iff_getElem?_eq_some.2 found)
    rw [result] at stored
    rcases or_eq_some_iff.1 stored with rfl | ⟨-, kept⟩
    · exact nodeMerge_id (fun t => keyedTeam id t) (keyedDraft id d found) alone
    · exact keyedTeam id n kept

theorem resolveUnsupportedNodes_keyed (resolutions : Resolutions) :
    Keyed (resolveUnsupportedNodes team draft resolutions).nodes := by
  simp only [resolveUnsupportedNodes]
  split
  · exact keyedDraft
  · apply List.foldlRecOn (motive := fun s : DocumentState => Keyed s.nodes)
    · exact keyedDraft
    · rintro s keyed ⟨id, node⟩ -
      repeat' split
      · exact keyed
      · exact keyed.erase id
      · exact keyed
      · rename_i prior stored _
        exact keyed.insert (keyedTeam id prior stored)
      · exact keyed

theorem resolved_keyed (resolutions : Resolutions) (buildEventPlan : Bool) :
    Keyed (if buildEventPlan then resolveUnsupportedNodes team.canonical draft resolutions
      else draft).canonical.nodes := by
  apply Keyed.canonical
  split
  · exact resolveUnsupportedNodes_keyed keyedTeam.canonical keyedDraft resolutions
  · exact keyedDraft

theorem mergeDirect_settles (base : DocumentState) (groupInserts : Bool) :
    Settles fun fuel =>
      mergeDirect env fuel base team draft resolutions buildEventPlan groupInserts := by
  have keyedResolved := resolved_keyed keyedTeam keyedDraft resolutions buildEventPlan
  apply map
  simp only [mergeWith]
  refine bind (mergeNodes_settles _ _ _ _) fun acc returned => ?_
  obtain ⟨-, merged⟩ := returned
  have keyed := mergeNodes_keyed keyedTeam.canonical keyedResolved merged
  refine bind ?_ fun repaired _ => ?_
  · exact repair_settles keyedTeam.canonical keyedResolved (WellStored.retainRemoved keyed) _ _ _
  · split
    · exact bind (diffForMerge_settles _ _ _ _) fun _ _ => ok _
    · exact ok _

theorem mergeDirect_sound
    (merged : mergeDirect env fuel base team draft resolutions buildEventPlan false = .ok plan) :
    WellStored plan.state ∧ (plan.conflicts = [] → plan.state.ValidTree) := by
  have keyedResolved := resolved_keyed keyedTeam keyedDraft resolutions buildEventPlan
  obtain ⟨nodes, q, conflicts, visited, valid, sub, -⟩ := mergeDirect_ok merged
  have keyed := mergeNodes_keyed keyedTeam.canonical keyedResolved visited
  obtain ⟨sound, clean⟩ := (WellStored.retainRemoved keyed).repair keyedTeam.canonical keyedResolved valid
  refine ⟨sound, fun none => sound.valid (clean ?_)⟩
  exact List.subset_nil.1 (none ▸ sub)

theorem mergeStrict_settles (base : DocumentState) :
    Settles fun fuel => mergeStrict env fuel base team draft resolutions := by
  have keyedResolved := resolveUnsupportedNodes_keyed keyedTeam keyedDraft resolutions
  refine bind (mergeDirect_settles keyedTeam keyedResolved base false) fun plan returned => ?_
  obtain ⟨fuel, merged⟩ := returned
  have keyed := (mergeDirect_sound keyedTeam keyedResolved merged).1.keyed
  refine bind (diffForMerge_settles _ _ _ _) fun touched _ => ?_
  refine bind ?_ fun repaired _ => ?_
  · apply repair_settles keyedTeam keyedResolved
    apply WellStored.retainRemoved
    exact foldl_strictBlock_keyed keyedTeam.canonical keyed _
  · exact bind (diffForMerge_settles _ _ _ _) fun _ _ => ok _

theorem mergeStrict_valid (merged : mergeStrict env fuel base team draft resolutions = .ok plan)
    (clean : plan.conflicts = []) : plan.state.ValidTree := by
  have keyedResolved := resolveUnsupportedNodes_keyed keyedTeam keyedDraft resolutions
  simp only [mergeStrict, mergeStrictWithInsertOrdering, bind_eq_ok, Prod.exists] at merged
  obtain ⟨first, direct, touchedOps, reported, -, out, conflicts, repaired, rest⟩ := merged
  have keyed := (mergeDirect_sound keyedTeam keyedResolved direct).1.keyed
  obtain ⟨ops, conflicts', planned, same⟩ := rest
  cases same
  obtain ⟨sound, silent⟩ := WellStored.repair keyedTeam keyedResolved
    (WellStored.retainRemoved (foldl_strictBlock_keyed keyedTeam.canonical keyed _)) repaired
  exact sound.valid (silent (List.subset_nil.1 (clean ▸ diffForMerge_subset planned)))

end Plans

/-- Both merges end, whatever the states and the resolutions; a plan without conflicts
holds a valid tree. Only that nodes are stored under their ids is asked for. -/
theorem merges_end_and_are_valid (env : Externals) (base team draft : DocumentState)
    (resolutions : Resolutions) (keyedTeam : Keyed team.nodes) (keyedDraft : Keyed draft.nodes) :
    (Settles fun fuel => merge env fuel base team draft resolutions) ∧
    (Settles fun fuel => mergeStrict env fuel base team draft resolutions) ∧
    ∀ fuel plan, merge env fuel base team draft resolutions = .ok plan ∨
        mergeStrict env fuel base team draft resolutions = .ok plan →
      plan.conflicts = [] → plan.state.ValidTree := by
  refine ⟨mergeDirect_settles keyedTeam keyedDraft base false,
    mergeStrict_settles keyedTeam keyedDraft base, fun fuel plan merged clean => ?_⟩
  rcases merged with merged | merged
  · exact (mergeDirect_sound keyedTeam keyedDraft merged).2 clean
  · exact mergeStrict_valid keyedTeam keyedDraft merged clean

/-- A draft that gives one block's name to a new block and renames the first. -/
def swappedNames : DocumentState :=
  .ofNodes [sampleNode "Old" (some "age"),
    ⟨"r", some "q", "item", "a1", .fields [], some "years", false⟩]

theorem swap_ends_and_is_valid : ∃ plan,
    merge plainExternals 16 (.ofNodes [sampleNode "Old" (some "years")])
      (.ofNodes [sampleNode "New" (some "years")]) swappedNames ∅ = .ok plan ∧
    plan.conflicts = [] ∧ plan.state.ValidTree := by
  have run : (merge plainExternals 16 (.ofNodes [sampleNode "Old" (some "years")])
      (.ofNodes [sampleNode "New" (some "years")]) swappedNames ∅).toOption.map
      MergePlan.conflicts = some [] := by decide +kernel
  obtain ⟨plan, merged, clean⟩ := map_eq_some_iff.1 run
  rw [toOption_eq_some] at merged
  obtain ⟨-, -, valid⟩ := merges_end_and_are_valid plainExternals
    (.ofNodes [sampleNode "Old" (some "years")]) (.ofNodes [sampleNode "New" (some "years")])
    swappedNames ∅ (keyed_ofNodes _) (keyed_ofNodes _)
  exact ⟨plan, merged, clean, valid 16 plan (.inl merged) clean⟩

/-- Two nodes with one id, the second of them stored under another key. -/
def aliasedDraft : DocumentState :=
  { DocumentState.ofNodes [⟨"p", none, "form", "a0", .fields [], some "v", false⟩] with
    nodes := (DocumentState.ofNodes
      [⟨"p", none, "form", "a0", .fields [], some "v", false⟩]).nodes.insert "x"
        ⟨"p", some "p", "form", "a0", .fields [], some "v", false⟩ }

theorem findDefect_aliased (enough : 8 ≤ fuel) :
    findDefect fuel (.ofNodes []) aliasedDraft = .ok (some (.name "p")) := by
  have acyclic : findCycleFrom 8 aliasedDraft aliasedDraft.nodes.keys [] = .ok none := by
    decide +kernel
  have walked : findParentCycle fuel aliasedDraft = .ok none :=
    (findCycleFrom_mono enough (by simp [acyclic])).trans acyclic
  simp only [findDefect, walked]
  decide +kernel

/-- The removal of the children of such a node never ends. -/
theorem rejectBlock_aliased (fuel : Nat) :
    rejectBlock fuel (.ofNodes []) aliasedDraft "p" = .error .outOfFuel := by
  have stuck : loop (dropKids (.ofNodes [])) fuel (aliasedDraft.nodes.erase "p", ["p"]) =
      .error .outOfFuel := loop_stuck (by decide +kernel) fuel
  simp [rejectBlock, stuck, Bind.bind, Except.bind]

theorem validate_aliased (enough : 8 ≤ fuel) (base draft : DocumentState) :
    validateMergedTree fuel base (.ofNodes []) draft ∅ aliasedDraft [] = .error .outOfFuel := by
  have gone : liveNode (.ofNodes []) "p" = none := by decide +kernel
  have resolved : resolveDuplicateVarName fuel base (.ofNodes []) draft aliasedDraft [] ∅ "p" =
      .error .outOfFuel := by
    simp [resolveDuplicateVarName, freshName, gone, rejectBlock_aliased, Except.map]
  unfold validateMergedTree repair
  simp [findDefect_aliased enough, Defect.resolve, resolved, Bind.bind, Except.bind]

theorem merge_hangs_on_aliased_id :
    ¬ Settles fun fuel => merge plainExternals fuel (.ofNodes []) (.ofNodes []) aliasedDraft ∅ := by
  rintro ⟨result, bound, known, stable⟩
  apply known
  rw [← stable (max 8 bound) (Nat.le_max_right ..)]
  have nodes : mergeNodes (direct plainExternals) ∅ true (ofNodes []) (ofNodes [])
      (resolveUnsupportedNodes (ofNodes []) aliasedDraft ∅).canonical ⟨(), []⟩ =
        .ok (aliasedDraft.nodes, ⟨(), []⟩) := by decide +kernel
  have empty : (ofNodes []).canonical = ofNodes [] := by decide +kernel
  have out : retainRemoved { ofNodes [] with nodes := aliasedDraft.nodes } = aliasedDraft := by
    decide +kernel
  simp only [merge, mergeDirect, mergeWith, if_true, empty, nodes, Bind.bind, Except.bind, out,
    validate_aliased (Nat.le_max_left 8 bound), Except.map]

end Merge
end Dynodoc
