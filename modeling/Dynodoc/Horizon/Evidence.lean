import Dynodoc.Horizon.Rules
import Dynodoc.Horizon.States

/-! What a plan keeps as evidence for the commits that stay for their own sake, and what
becomes of the file states of that evidence. -/
namespace Dynodoc.Horizon
open Std (ExtTreeMap ExtTreeSet)
open Checkpoint (Address)
open Log (Hashing Uuid)
open Loop OrderedMap Sorted List Std.ExtTreeMap

variable {policy : Policy} {reason : Reason} {graph : Graph} {a : Address} {options : PlanOptions}
  {commit : CommitNode} {decision : Decision} {view : HistoryView}

section Labels

variable {cutoff : Option Int} {heads : ExtTreeMap String Address} {held : List Hold}
  {forks : List Address}
variable {parents : Address → List Address}

theorem primary_of_keepPrimary
    (found : (keepPrimary graph policy cutoff heads held forks)[a]? = some reason) :
    reason.primary = true := by
  rcases of_getElem?_markAll found with absent | offered
  · simp at absent
  simp only [primaryOffers, mem_append, mem_map, mem_pin] at offered
  rcases offered with ((((⟨_, -, -, rfl⟩ | ⟨-, -, rfl⟩) | ⟨-, -, rfl⟩) | ⟨-, -, rfl⟩) |
    ⟨_, -, -, rfl⟩) | ⟨_, -, -, rfl⟩
  all_goals rfl

inductive NeededBy (parents : Address → List Address) (commit : CommitNode) (a : Address) :
    Reason → Prop
  | recovery (version : commit.version = 2)
      (mem : a ∈ commit.recovery ++ commit.parents.head?.toList) :
      NeededBy parents commit a .evidenceRecovery
  | merge (version : commit.version = 3) {nodes : List Address}
      (found : mergeEvidence parents commit = .ok nodes) (mem : a ∈ nodes) :
      NeededBy parents commit a .evidenceMerge

theorem mem_evidenceOf
    {offers : List (Address × Reason)} (found : evidenceOf parents commit = .ok offers) :
    (a, reason) ∈ offers ↔ NeededBy parents commit a reason := by
  rw [evidenceOf] at found
  split at found
  · rename_i version
    cases found
    constructor
    · intro offered
      obtain ⟨_, mem, same⟩ := mem_map.1 offered
      cases same
      exact .recovery version mem
    · rintro (⟨_, mem⟩ | ⟨other, _, _⟩)
      · exact mem_map.2 ⟨a, mem, rfl⟩
      · rw [version] at other
        contradiction
  · rename_i version
    obtain ⟨nodes, merged, same⟩ := bind_eq_ok.1 found
    cases same
    constructor
    · intro offered
      obtain ⟨_, mem, same⟩ := mem_map.1 offered
      cases same
      exact .merge version merged mem
    · rintro (⟨other, _⟩ | ⟨_, merged', mem⟩)
      · rw [version] at other
        contradiction
      · rw [merged] at merged'
        cases merged'
        exact mem_map.2 ⟨a, mem, rfl⟩
  · rename_i notTwo notThree
    cases found
    constructor
    · simp
    rintro (⟨version, _⟩ | ⟨version, _, _⟩)
    · exact absurd version notTwo
    · exact absurd version notThree

theorem NeededBy.version_of_recovery
    (needed : NeededBy parents commit a .evidenceRecovery) : commit.version = 2 := by
  cases needed
  assumption

theorem NeededBy.version_of_merge
    (needed : NeededBy parents commit a .evidenceMerge) : commit.version = 3 := by
  cases needed
  assumption

/-- The first offer to keep a commit as evidence comes from the commit with the lowest address. -/
theorem first_offer {commits : List CommitNode} {lists : List (List (Address × Reason))}
    (found : List.Forall₂ (fun commit offers => evidenceOf parents commit = .ok offers) commits lists)
    (sorted : commits.Pairwise fun c d => compare c.address d.address = .lt) :
    (lists.flatten.find? fun offer => offer.1 = a).map Prod.snd = some .evidenceRecovery ↔
      ∃ commit ∈ commits, NeededBy parents commit a .evidenceRecovery ∧
        ∀ merge ∈ commits, compare merge.address commit.address = .lt →
          ¬ NeededBy parents merge a .evidenceMerge := by
  induction found with
  | nil => simp
  | @cons c offers commits lists head _ ih =>
    obtain ⟨before, sorted⟩ := pairwise_cons.1 sorted
    have after {d : CommitNode} (mem : d ∈ commits) : compare d.address c.address ≠ .lt := by
      rw [Std.OrientedCmp.gt_of_lt (before d mem)]
      simp
    rw [flatten_cons, find?_append]
    cases here : offers.find? fun offer => offer.1 = a with
    | some chosen =>
      have same : chosen.1 = a := by simpa using find?_some here
      have given : NeededBy parents c a chosen.2 :=
        (mem_evidenceOf head).1 (same ▸ mem_of_find?_eq_some here)
      simp only [Option.some_or, Option.map_some, Option.some.injEq]
      constructor
      · intro recovery
        refine ⟨c, by simp, recovery ▸ given, fun merge mem lower => ?_⟩
        rcases mem_cons.1 mem with rfl | later
        · simp at lower
        · exact absurd lower (after later)
      · rintro ⟨commit, mem, needed, unmerged⟩
        by_contra notRecovery
        have merged : NeededBy parents c a .evidenceMerge := by
          generalize chosen.2 = reason at given notRecovery
          cases given with
          | recovery => exact absurd rfl notRecovery
          | merge version found mem => exact .merge version found mem
        rcases mem_cons.1 mem with rfl | later
        · have two := needed.version_of_recovery
          rw [merged.version_of_merge] at two
          contradiction
        · exact unmerged c (by simp) (before commit later) merged
    | none =>
      have silent {reason : Reason} : ¬ NeededBy parents c a reason := by
        intro needed
        have passed := find?_eq_none.1 here _ ((mem_evidenceOf head).2 needed)
        simp at passed
      rw [Option.none_or, ih sorted]
      simp [silent]

end Labels

namespace HistoryView

variable (view : HistoryView) (policy : Policy) (options : PlanOptions)

/-- Needed by a recovery that stays for its own sake, and by no such merge with a lower address. -/
def KeptForRecovery (a : Address) : Prop :=
  ∃ commit ∈ view.commits, view.KeptForItself policy options commit.address ∧
    NeededBy view.parents commit.toCommitNode a .evidenceRecovery ∧
    ∀ merge ∈ view.commits, view.KeptForItself policy options merge.address →
      compare merge.address commit.address = .lt →
      ¬ NeededBy view.parents merge.toCommitNode a .evidenceMerge

/-- Kept for its own sake, or stored and needed by such a commit. -/
def Kept (a : Address) : Prop :=
  view.KeptForItself policy options a ∨ a ∈ view.bodies ∧ ∃ commit ∈ view.commits,
    view.KeptForItself policy options commit.address ∧ ∃ reason,
    NeededBy view.parents commit.toCommitNode a reason

/-- A file of a commit that keeps its files, or an input of a merge that keeps them. -/
def KeepsState (key : StateKey) : Prop :=
  ∃ commit ∈ view.commits,
    (view.KeptForItself policy options commit.address ∨
    view.KeptForRecovery policy options commit.address) ∧
      key ∈ view.fileStates commit ∨
    policy.protect.mergeInputs = .states ∧ view.KeptForItself policy options commit.address ∧
      key ∈ view.inputStates commit

end HistoryView

theorem keptBodies_sorted (built : graph.Built view) (keep : Reasons) :
    (keptBodies graph keep).Pairwise fun c d => compare c.address d.address = .lt := by
  rw [keptBodies, pairwise_map]
  refine (ordered_keys_toList.filter _).imp_of_mem fun {c d} memC memD less => ?_
  have named {entry : Address × CommitNode} (mem : entry ∈ graph.bodies.toList) :
      entry.2.address = entry.1 := by
    rw [built.bodies] at mem
    exact address_of_body (mem_toList_iff_getElem?_eq_some.1 mem)
  rwa [named (mem_filter.1 memC).1, named (mem_filter.1 memD).1]

theorem mem_keptBodies (built : graph.Built view) {keep : Reasons} :
    commit ∈ keptBodies graph keep ↔
      commit.address ∈ keep ∧ ∃ stored ∈ view.commits, stored.toCommitNode = commit := by
  simp only [keptBodies, built.bodies, mem_map, mem_filter, Prod.exists,
    mem_toList_iff_getElem?_eq_some, mem_bodies_iff, decide_eq_true_eq]
  constructor
  · rintro ⟨_, _, ⟨⟨stored, mem, rfl, rfl⟩, kept⟩, rfl⟩
    exact ⟨kept, stored, mem, rfl⟩
  · rintro ⟨kept, stored, mem, rfl⟩
    exact ⟨_, _, ⟨⟨stored, mem, rfl, rfl⟩, kept⟩, rfl⟩

section Reasons

variable (made : decision.Made view policy options)

include made

theorem Decision.Made.lists :
    ∃ lists, List.Forall₂ (fun commit offers => evidenceOf decision.graph.parents commit = .ok offers)
      (keptBodies decision.graph decision.primary) lists ∧ made.evidence = lists.flatten := by
  obtain ⟨lists, mapped, same⟩ := bind_eq_ok.1 made.proven
  exact ⟨lists, mapM_eq_ok.1 mapped, (Except.ok.inj same).symm⟩

theorem getElem?_kept
    (primary : decision.primary[a]? = some reason) : decision.kept[a]? = some reason := by
  rw [made.kept, keepEvidence, getElem?_markAll, primary, Option.some_or]

theorem mem_primary_of_kept
    (kept : decision.kept[a]? = some reason) (own : reason.primary = true) :
    decision.primary[a]? = some reason := by
  rw [made.kept] at kept
  rcases of_getElem?_markAll kept with primary | offered
  · exact primary
  · obtain ⟨lists, related, evidence⟩ := made.lists
    have offered := (mem_filter.1 offered).1
    rw [evidence] at offered
    obtain ⟨offers, mem, offered⟩ := mem_flatten.1 offered
    obtain ⟨commit, -, found⟩ := exists_left_of_mem related mem
    cases (mem_evidenceOf found).1 offered <;> contradiction

theorem Decision.Made.kept_iff : a ∈ decision.kept ↔ view.Kept policy options a := by
  obtain ⟨lists, related, evidence⟩ := made.lists
  rw [made.kept, keepEvidence, mem_markAll, made.mem_primary, evidence,
    HistoryView.Kept, ← made.built.parents]
  refine or_congr_right ?_
  simp only [mem_map, mem_filter, mem_flatten, decide_eq_true_eq, Prod.exists, exists_and_right,
    exists_eq_right,
    made.built.bodies]
  rw [and_comm]
  refine and_congr_right fun stored => ?_
  constructor
  · rintro ⟨reason, offers, listed, offered⟩
    obtain ⟨_, kept, asked⟩ := exists_left_of_mem related listed
    obtain ⟨own, commit, mem, rfl⟩ := (mem_keptBodies made.built).1 kept
    exact ⟨commit, mem, made.mem_primary.1 own, reason, (mem_evidenceOf asked).1 offered⟩
  · rintro ⟨commit, mem, own, reason, needed⟩
    obtain ⟨offers, listed, asked⟩ := exists_right_of_mem related
      ((mem_keptBodies made.built).2 ⟨made.mem_primary.2 own, commit, mem, rfl⟩)
    exact ⟨reason, offers, listed, (mem_evidenceOf asked).2 needed⟩

/-- What the commits kept for themselves offer first is a recovery exactly if the view says so. -/
theorem first_is_recovery {lists : List (List (Address × Reason))}
    (related : List.Forall₂
      (fun commit offers => evidenceOf decision.graph.parents commit = .ok offers)
      (keptBodies decision.graph decision.primary) lists) :
    (lists.flatten.find? fun offer => offer.1 = a).map Prod.snd = some .evidenceRecovery ↔
      view.KeptForRecovery policy options a := by
  rw [first_offer related (keptBodies_sorted made.built _), made.built.parents]
  simp only [mem_keptBodies made.built, made.mem_primary]
  constructor
  · rintro ⟨_, ⟨own, commit, mem, rfl⟩, needed, unmerged⟩
    exact ⟨commit, mem, own, needed, fun merge inside own => unmerged _ ⟨own, merge, inside, rfl⟩⟩
  · rintro ⟨commit, mem, own, needed, unmerged⟩
    refine ⟨_, ⟨own, commit, mem, rfl⟩, needed, ?_⟩
    rintro _ ⟨own, merge, inside, rfl⟩
    exact unmerged merge inside own

/-- Which stored commits keep their files when a plan keeps commits and releases states. -/
theorem keepsFiles_content (content : policy.tier = .content) (stored : a ∈ view.bodies) :
    decision.keepsFiles policy a = true ↔
      view.KeptForItself policy options a ∨ view.KeptForRecovery policy options a := by
  obtain ⟨lists, related, evidence⟩ := made.lists
  have filtered : ((lists.flatten.filter fun offer => offer.1 ∈ decision.graph.bodies).find?
      fun offer => offer.1 = a) = lists.flatten.find? fun offer => offer.1 = a := by
    rw [find?_filter]
    congr 1
    funext offer
    by_cases same : offer.1 = a <;> simp [same, made.built.bodies, stored]
  have kept : decision.kept[a]? =
      decision.primary[a]?.or ((lists.flatten.find? fun offer => offer.1 = a).map Prod.snd) := by
    rw [made.kept, keepEvidence, getElem?_markAll, evidence, filtered]
  rw [Decision.keepsFiles, keepsFiles, if_neg (by simp [content]), kept, ← made.mem_primary]
  cases primary : decision.primary[a]? with
  | some reason =>
    have own : reason.primary = true := primary_of_keepPrimary (made.primary ▸ primary)
    simp [own, mem_iff_isSome_getElem?, primary]
  | none =>
    have other : a ∉ decision.primary := OrderedMap.getElem?_eq_none_iff.1 primary
    rw [← first_is_recovery made related, or_iff_right other, Option.none_or]
    cases found : lists.flatten.find? fun offer => offer.1 = a with
    | none => simp
    | some offer =>
      obtain ⟨offers, listed, offered⟩ := mem_flatten.1 (mem_of_find?_eq_some found)
      obtain ⟨commit, -, asked⟩ := exists_left_of_mem related listed
      obtain ⟨b, reason⟩ := offer
      cases (mem_evidenceOf asked).1 offered <;> simp [Reason.primary]

end Reasons

section Readable

theorem Reason.label_injective : Function.Injective Reason.label := by
  intro r s same
  cases r <;> cases s <;> simp_all [Reason.label]

/-- Head, held, protected, merge base or recent. -/
def HorizonPlan.KeptForItself (result : HorizonPlan) (a : Address) : Prop :=
  ∃ reason : Reason, reason.primary = true ∧ (a, reason.label) ∈ result.sets.kept

variable {env : Hashing}

theorem mem_kept_iff {result : HorizonPlan}
    (listed : result.sets.kept = decision.kept.toList.map fun entry => (entry.1, entry.2.label)) :
    (a, reason.label) ∈ result.sets.kept ↔ decision.kept[a]? = some reason := by
  rw [listed, mem_map]
  constructor
  · rintro ⟨⟨b, given⟩, mem, same⟩
    obtain ⟨rfl, sameLabel⟩ := Prod.mk.inj same
    cases Reason.label_injective sameLabel
    exact mem_toList_iff_getElem?_eq_some.1 mem
  · intro kept
    exact ⟨(a, reason), mem_toList_iff_getElem?_eq_some.2 kept, rfl⟩

theorem keptForItself_iff (result : HorizonPlan) (made : decision.Made view policy options)
    (listed : result.sets.kept = decision.kept.toList.map fun entry => (entry.1, entry.2.label)) :
    result.KeptForItself a ↔ a ∈ decision.primary := by
  constructor
  · rintro ⟨reason, own, mem⟩
    rw [mem_iff_isSome_getElem?,
      mem_primary_of_kept made ((mem_kept_iff listed).1 mem) own]
    rfl
  · intro mem
    obtain ⟨reason, primary⟩ := mem_iff_exists.1 mem
    have kept := getElem?_kept made primary
    rw [made.primary] at primary
    exact ⟨reason, primary_of_keepPrimary primary, (mem_kept_iff listed).2 kept⟩

/-- A plan that keeps all commits keeps the states of a commit exactly when each of them is also a
state of a commit that stays for its own sake or was first asked for by a recovery, or a merge input
that stays. -/
theorem recovery_evidence_stays_readable (env : Hashing) (view : HistoryView) (policy : Policy)
    (options : PlanOptions) (result : HorizonPlan)
    (planned : plan env view policy options = .ok result) (content : policy.tier = .content) :
    ∀ commit ∈ view.commits, commit.version = 2 → view.KeptForItself policy options commit.address →
      ∀ source ∈ view.commits, source.address ∈ commit.recovery ++ commit.parents.head?.toList →
      ((∀ key ∈ view.fileStates source, key ∉ result.sets.releasedStates) ↔
        ∀ key ∈ view.fileStates source, view.KeepsState policy options key) := by
  intro _ _ _ _ source stored _
  obtain ⟨decision, roots, digest, ⟨made⟩, -, -, -, rfl⟩ := plan_eq_ok.1 planned
  refine forall₂_congr fun key isKey => ?_
  change key ∉ decision.releasedStates view policy ↔ _
  have isFile : view.content.FileState key := ⟨view.resolve source, mem_map_of_mem stored,
    ExtTreeSet.mem_ofList.2 (contains_iff_mem.2 isKey)⟩
  have inputs (a : Address) : decision.keepsInputs policy a = true ↔
      policy.protect.mergeInputs = .states ∧ view.KeptForItself policy options a := by
    simp [Decision.keepsInputs, keepsInputs, content, made.mem_primary]
  rw [mem_releasedStates, Content.ReleasedState, not_and_not_right, imp_iff_right isFile]
  simp only [Content.KeptState, HistoryView.content, mem_map, exists_exists_and_eq_and,
    HistoryView.KeepsState]
  refine exists_congr fun commit => and_congr_right fun mem => or_congr ?_ ?_
  · refine and_congr (keepsFiles_content made content (stored_iff.2 ⟨commit, mem, rfl⟩)) ?_
    simp [HistoryView.resolve]
  · rw [← and_assoc]
    refine and_congr (inputs commit.address) ?_
    simp [HistoryView.resolve]

end Readable

/-! Histories by which plans can be computed. -/

/-- Thirty-one zeros and a byte. -/
def smallAddress (n : UInt8) : Address := ⟨List.replicate 31 0 ++ [n], by simp⟩

def smallUuid (n : UInt8) : Uuid := ⟨List.replicate 15 0 ++ [n], by simp⟩

/-- A commit whose only file has the state with its own number. -/
def smallCommit (n : UInt8) (version : Nat) (parents : List UInt8) (recovery : Option UInt8) : Call :=
  .commit (smallAddress n)
    { version := version
      project := smallUuid 0
      parents := parents.map smallAddress
      files := .ofList [("a.json", FileEntry.mk (smallUuid 1) (smallAddress n))]
      authoredAtMs := n.toNat
      recovery := recovery.map fun source => ⟨smallAddress source, none⟩
      sameFileResolutions := [] } 100 none

def smallHead (branch : String) (n : UInt8) : Call := .branch ⟨branch, smallAddress n, 1⟩

def smallView (calls : List Call) : HistoryView :=
  ((HistoryView.build (smallUuid 0) ⟨[], []⟩ calls).toOption).getD (.new (smallUuid 0) ⟨[], []⟩)

/-- The policy that a file with an identifier, a tier, a number of last commits and a mode for
merge inputs is loaded as. -/
def smallPolicy (tier : Tier) (last : Nat) : Policy where
  id := "p"
  description := ""
  tier := tier
  window := ⟨none, some last, none⟩
  protect := {
    branchHeads := true
    namedVersions := true
    mergeBases := none
    openReviewCandidates := true
    reviewedCandidates := .body
    recoverySources := true
    mergeInputs := .bodies
    holds := true
    commits := [] }
  topology := .keep
  acknowledgeUnmergeableHistory := false
  archive := ⟨false, none⟩
  signaturesRequired := 1
  quarantineDays := 0

def smallPlan (calls : List Call) (policy : Policy) : Except Error HorizonPlan :=
  plan Log.sumHashing (smallView calls) policy ⟨none, 10⟩

/-- A commit and its sibling are merged, and then the commit is reverted. -/
def revertedHistory (merge revert : UInt8) : List Call :=
  [smallCommit 1 1 [] none, smallCommit 2 1 [1] none, smallCommit 3 1 [1] none,
    smallCommit merge 3 [2, 3] none, smallCommit revert 2 [merge] (some 2),
    smallHead "main" merge, smallHead "undo" revert]

/-- The revert has the lower address, so that it is the first to ask for the commit. -/
theorem reverted_commit_stays_readable :
    ∃ result, smallPlan (revertedHistory 5 4) (smallPolicy .content 1) = .ok result ∧
      ∀ source ∈ (smallView (revertedHistory 5 4)).commits, source.address = smallAddress 2 →
        ∀ key ∈ (smallView (revertedHistory 5 4)).fileStates source,
          key ∉ result.sets.releasedStates := by
  obtain ⟨result, found⟩ := Option.isSome_iff_exists.1 (show
    (smallPlan (revertedHistory 5 4) (smallPolicy .content 1)).toOption.isSome by decide +kernel)
  have planned := toOption_eq_some.1 found
  have head : ⟨"undo", smallAddress 4, 1⟩ ∈ (smallView (revertedHistory 5 4)).branches := by decide +kernel
  have revert : ∃ commit ∈ (smallView (revertedHistory 5 4)).commits, commit.version = 2 ∧
      commit.address = smallAddress 4 ∧
      smallAddress 2 ∈ commit.recovery ++ commit.parents.head?.toList := by decide +kernel
  have noMerge : ∀ merge ∈ (smallView (revertedHistory 5 4)).commits, merge.version = 3 →
      compare merge.address (smallAddress 4) ≠ .lt := by decide +kernel
  obtain ⟨commit, mem, version, address, needed⟩ := revert
  refine ⟨result, planned, fun source stored named => ?_⟩
  have own : (smallView (revertedHistory 5 4)).KeptForItself (smallPolicy .content 1) ⟨none, 10⟩
      commit.address := address ▸ .head head
  have first : (smallView (revertedHistory 5 4)).KeptForRecovery (smallPolicy .content 1) ⟨none, 10⟩
      (smallAddress 2) :=
    ⟨commit, mem, own, .recovery version needed, fun merge inView _ lower asked =>
      noMerge merge inView asked.version_of_merge (address ▸ lower)⟩
  exact (recovery_evidence_stays_readable _ _ _ _ result planned rfl commit mem version own source stored
    (named ▸ needed)).2 fun key isKey => ⟨source, stored, .inl ⟨.inr (named ▸ first), isKey⟩⟩

/-- The merge has the lower address, and the state of the reverted commit is released. -/
theorem merge_evidence_loses_states :
    ¬ ∀ (env : Hashing) (view : HistoryView) (policy : Policy) (options : PlanOptions)
      (result : HorizonPlan), plan env view policy options = .ok result →
      policy.tier = .content → ∀ commit ∈ view.commits, commit.version = 2 →
      view.KeptForItself policy options commit.address → ∀ source ∈ view.commits,
      source.address ∈ commit.recovery ++ commit.parents.head?.toList →
      ∀ key ∈ view.fileStates source, key ∉ result.sets.releasedStates := by
  intro claim
  obtain ⟨result, found⟩ := Option.isSome_iff_exists.1 (show
    (smallPlan (revertedHistory 4 5) (smallPolicy .content 1)).toOption.isSome by decide +kernel)
  have head : ⟨"undo", smallAddress 5, 1⟩ ∈ (smallView (revertedHistory 4 5)).branches := by decide +kernel
  have lost : ∃ commit ∈ (smallView (revertedHistory 4 5)).commits, commit.version = 2 ∧
      commit.address = smallAddress 5 ∧ ∃ source ∈ (smallView (revertedHistory 4 5)).commits,
      source.address ∈ commit.recovery ++ commit.parents.head?.toList ∧
      ∃ key ∈ (smallView (revertedHistory 4 5)).fileStates source,
        key ∈ (((smallPlan (revertedHistory 4 5) (smallPolicy .content 1)).toOption.map
          fun result => result.sets.releasedStates).getD []) := by decide +kernel
  rw [found] at lost
  obtain ⟨commit, mem, version, address, source, stored, needed, key, isState, isLost⟩ := lost
  exact claim _ _ _ _ result (toOption_eq_some.1 found) rfl commit mem version
    (address ▸ .head head) source stored needed key isState isLost

end Dynodoc.Horizon
