import Dynodoc.Repository.FilePlan

/-! Recovery: what a commit changed, or the inverse of it, is planned on top of another commit. -/
namespace Dynodoc.Repository
open Std (ExtTreeMap)
open Checkpoint (Address plainAddress)
open Log (Uuid plainUuid)
open OrderedMap Loop Std.ExtTreeMap
open List hiding getElem?_insert

structure RecoveryPlan where
  project : Uuid
  onto : Address
  source : RecoverySource
  changes : ProjectPlan

section Plan

variable (env : Externals) (source : Commit)

/-- The commit that the source is compared with: a parent, or the empty tree if it is a root. -/
def Recovery.baseline (mainline : Option Commit) : Commit := mainline.getD { source with files := ∅ }

def Recovery.parent : Option Commit → Except Error (Option Address)
  | none =>
    if source.parents ≠ [] then .error (.invalid "recovery source requires a mainline parent")
    else .ok none
  | some parent => do
    let address ← parent.address env
    if parent.project ≠ source.project ∨ address ∉ source.parents then
      .error (.invalid "recovery mainline is not a source parent")
    else .ok (some address)

def Recovery.changes (kind : RecoveryKind) (onto : Commit) (mainline : Option Commit) :
    Except Error ProjectPlan :=
  match kind with
  | .cherryPick => Repository.plan (Recovery.baseline source mainline) onto source
  | .revert => Repository.plan source onto (Recovery.baseline source mainline)

def Recovery.plan (kind : RecoveryKind) (onto : Commit) (mainline : Option Commit) :
    Except Error RecoveryPlan := do
  source.validate
  onto.validate
  if source.project ≠ onto.project then .error (.invalid "recovery project scope")
  else
    let parent ← Recovery.parent env source mainline
    let address ← onto.address env
    let commit ← source.address env
    let changes ← Recovery.changes source kind onto mainline
    .ok ⟨source.project, address, ⟨kind, commit, parent⟩, changes⟩

end Plan

namespace RecoveryPlan

variable (plan : RecoveryPlan)

def validateFiles (files : ExtTreeMap String FileEntry) : Except Error Unit :=
  let conflicts := plan.changes.conflicts.map FileConflict.path
  if (files.keys ++ plan.changes.files.keys).any fun path =>
      path ∉ conflicts ∧ files[path]? ≠ plan.changes.files[path]? then
    .error (.invalid "recovery changes an unconflicted path")
  else .ok ()

def resolve (env : Externals) (resolutions : ExtTreeMap String (Option FileEntry)) (authoredAtMs : Int)
    (message : String) : Except Error Commit :=
  if resolutions.size ≠ plan.changes.conflicts.length ∨
      plan.changes.conflicts.any fun c => c.path ∉ resolutions then
    .error (.invalid "resolve every conflict path exactly once")
  else do
    let files := resolutions.toList.foldl (fun files (path, choice) =>
      match choice with
      | some file => files.insert path file
      | none => files) plan.changes.files
    plan.validateFiles files
    let result : Commit := {
      version := 2
      project := plan.project
      parents := [plan.onto]
      files
      authorKey := String.ofList (List.replicate 64 '0')
      authoredAtMs
      message
      recovery := some plan.source
      sameFileResolutions := [] }
    let _ ← result.bytes env
    .ok result

end RecoveryPlan

section Laws

variable {α : Type} {b l r p : Option α}

/-- Once a change is there, making it again leaves everything as it is. -/
theorem Chosen.again (chosen : Chosen b l r p) : Chosen b p r p := by
  rcases chosen with ⟨-, rfl⟩ | ⟨rfl, rfl⟩ | ⟨rfl, rfl⟩
  · exact .inr (.inr ⟨rfl, rfl⟩)
  · exact .inr (.inl ⟨rfl, rfl⟩)
  · exact .inr (.inr ⟨rfl, rfl⟩)

/-- A change that was made where the other side had none is taken back exactly. -/
theorem Chosen.back (chosen : Chosen b l r p) (plain : r ≠ b → l = b) : Chosen r p b l := by
  by_cases same : r = b
  · subst same
    rcases chosen with ⟨rfl, rfl⟩ | ⟨-, rfl⟩ | ⟨-, rfl⟩ <;> exact .inr (.inl ⟨rfl, rfl⟩)
  · obtain rfl := plain same
    rcases chosen with ⟨-, rfl⟩ | ⟨isBase, -⟩ | ⟨isBase, -⟩
    · exact .inl ⟨rfl, rfl⟩
    · exact absurd isBase same
    · exact absurd isBase.symm same

end Laws

section Plans

variable {base left right commit : Commit} {path other : String} {result : ProjectPlan}

theorem no_clash_of_validate (valid : commit.validate = .ok ()) :
    ¬ Clash (commit.files[·]? = some ·) path other := by
  obtain ⟨documents, checked, -⟩ := filesChecked_of_validate valid
  rintro ⟨differ, file, file', found, found', clash⟩
  have isFile := of_getElem?_eq_some found
  have isFile' := of_getElem?_eq_some found'
  rw [← mem_toList_iff_getElem?_eq_some] at found found'
  rcases clash with same | below | below
  · have distinct := nodup_reverse.2 checked.distinct
    rw [checked.known] at distinct
    exact differ (congrArg Prod.fst (inj_on_of_nodup_map distinct found found' same))
  · exact checked.free _ found _ (mem_directories.2 below) isFile'
  · exact checked.free _ found' _ (mem_directories.2 below) isFile

theorem of_plan (planned : plan base left right = .ok result) :
    base.validate = .ok () ∧ base.project = right.project ∧ result = settled base left right := by
  obtain ⟨⟨⟩, validBase, rest⟩ := bind_eq_ok.1 planned
  obtain ⟨⟨⟩, validLeft, rest⟩ := bind_eq_ok.1 rest
  obtain ⟨⟨⟩, validRight, rest⟩ := bind_eq_ok.1 rest
  obtain ⟨scope, -⟩ := guard_eq_ok.1 rest
  simp only [not_or, not_not] at scope
  rw [plan_eq_settled validBase validLeft validRight scope.1 scope.2] at planned
  exact ⟨validBase, scope.2, (Except.ok.inj planned).symm⟩

theorem chosen_of_settled (free : (settled base left right).conflicts = []) (path : String) :
    ChosenAt base left right path (settled base left right).files[path]? := by
  have none : ¬ (ChangedApartAt base left right path ∨
      ∃ other, Clash (fun path file => ChosenAt base left right path (some file)) path other) := by
    rw [← settled_conflicts, free]
    exact not_mem_nil
  rw [not_or, ← chosenFile_eq_none] at none
  obtain ⟨file, chosen⟩ := Option.ne_none_iff_exists'.1 none.1
  rw [chosenFile_eq_some] at chosen
  have planned : (settled base left right).files[path]? = file := by
    refine Option.ext fun planned => ?_
    rw [settled_files, and_iff_left none.2]
    exact ⟨chosen.unique, fun same => same ▸ chosen⟩
  rwa [planned]

/-- If every path settles as in a commit that passes its checks, the plan is that commit's files. -/
theorem settled_of_chosen (valid : commit.validate = .ok ())
    (chosen : ∀ path, ChosenAt base left right path commit.files[path]?) :
    (settled base left right).conflicts = [] ∧ (settled base left right).files = commit.files := by
  have stands : (fun path file => ChosenAt base left right path (some file)) =
      (commit.files[·]? = some ·) := by
    funext path file
    exact propext ⟨fun other => (chosen path).unique other, fun found => found ▸ chosen path⟩
  constructor
  · rw [← map_eq_nil_iff (f := FileConflict.path), eq_nil_iff_forall_not_mem]
    intro path inConflict
    rcases settled_conflicts.1 inConflict with apart | ⟨other, clash⟩
    · exact (chosen path).not_apart apart
    · rw [stands] at clash
      exact no_clash_of_validate valid clash
  · refine ext_getElem? fun path => Option.ext fun file => ?_
    rw [settled_files]
    simp only [stands]
    rw [and_iff_left fun ⟨_, clash⟩ => no_clash_of_validate valid clash]
    exact iff_of_eq (congrFun (congrFun stands path) file)

end Plans

variable {env : Externals} {source onto picked : Commit} {mainline : Option Commit} {first : RecoveryPlan}

theorem RecoveryPlan.resolve_eq_ok {resolutions : ExtTreeMap String (Option FileEntry)} {authoredAtMs : Int}
    {message : String} (free : first.changes.conflicts = [])
    (resolved : first.resolve env resolutions authoredAtMs message = .ok picked) :
    picked.files = first.changes.files ∧ picked.project = first.project ∧ picked.validate = .ok () ∧
      ∃ address, picked.address env = .ok address := by
  obtain ⟨complete, resolved⟩ := guard_eq_ok.1 resolved
  obtain ⟨-, -, resolved⟩ := bind_eq_ok.1 resolved
  obtain ⟨bytes, written, same⟩ := bind_eq_ok.1 resolved
  cases same
  obtain ⟨⟨⟩, valid, -⟩ := bind_eq_ok.1 written
  have nothing : resolutions.toList = [] := by
    rw [← length_eq_zero_iff, length_toList]
    simp only [not_or, not_not] at complete
    rw [complete.1, free, length_nil]
  exact ⟨by simp [nothing], rfl, valid, _, by rw [Commit.address, written]; rfl⟩

/-- Picking a commit twice is picking it once, and if nothing stood where it made its change,
reverting it gives back what was there before. -/
theorem picked_change_is_reverted (env : Externals) (source onto picked : Commit) (mainline : Option Commit)
    (first : RecoveryPlan) (resolutions : ExtTreeMap String (Option FileEntry)) (authoredAtMs : Int)
    (message : String) (planned : Recovery.plan env source .cherryPick onto mainline = .ok first)
    (free : first.changes.conflicts = [])
    (resolved : first.resolve env resolutions authoredAtMs message = .ok picked) :
    (∃ again, Recovery.plan env source .cherryPick picked mainline = .ok again ∧
      again.changes.conflicts = [] ∧ again.changes.files = picked.files) ∧
    ((∀ path : String, source.files[path]? ≠ (Recovery.baseline source mainline).files[path]? →
        onto.files[path]? = (Recovery.baseline source mainline).files[path]?) →
      ∃ reverted, Recovery.plan env source .revert picked mainline = .ok reverted ∧
        reverted.changes.conflicts = [] ∧ reverted.changes.files = onto.files) := by
  obtain ⟨⟨⟩, validSource, rest⟩ := bind_eq_ok.1 planned
  obtain ⟨⟨⟩, validOnto, rest⟩ := bind_eq_ok.1 rest
  obtain ⟨-, rest⟩ := guard_eq_ok.1 rest
  obtain ⟨parent, isParent, rest⟩ := bind_eq_ok.1 rest
  obtain ⟨_, -, rest⟩ := bind_eq_ok.1 rest
  obtain ⟨commit, sourceAt, rest⟩ := bind_eq_ok.1 rest
  obtain ⟨changes, settles, same⟩ := bind_eq_ok.1 rest
  cases same
  obtain ⟨validBase, scope, rfl⟩ := of_plan settles
  obtain ⟨files, project, valid, address, pickedAt⟩ := RecoveryPlan.resolve_eq_ok free resolved
  have chosen := chosen_of_settled free
  rw [← files] at chosen
  have replan (kind : RecoveryKind) {result : ProjectPlan}
      (settles : Recovery.changes source kind picked mainline = .ok result) :
      Recovery.plan env source kind picked mainline =
        .ok ⟨source.project, address, ⟨kind, commit, parent⟩, result⟩ :=
    bind_eq_ok.2 ⟨(), validSource, bind_eq_ok.2 ⟨(), valid, guard_eq_ok.2 ⟨not_not.2 project.symm,
      bind_eq_ok.2 ⟨parent, isParent, bind_eq_ok.2 ⟨address, pickedAt, bind_eq_ok.2 ⟨commit, sourceAt,
        bind_eq_ok.2 ⟨result, settles, rfl⟩⟩⟩⟩⟩⟩⟩
  refine ⟨⟨_, replan .cherryPick
      (plan_eq_settled validBase valid validSource (scope.trans project.symm) scope),
    settled_of_chosen valid fun path => (chosen path).again⟩, fun plain => ⟨_, replan .revert
    (plan_eq_settled validSource valid validBase project.symm scope.symm),
    settled_of_chosen validOnto fun path => (chosen path).back (plain path)⟩⟩

def plainFile (document state : UInt8) : FileEntry := ⟨plainUuid document, plainAddress state⟩

def parentCommit : Commit :=
  { oneFile "a" with
    files := ((∅ : ExtTreeMap String FileEntry).insert "a" (plainFile 2 3)).insert "u" (plainFile 5 6) }

/-- It changes one file of its parent. -/
def changingCommit : Commit :=
  { parentCommit with parents := [plainAddress 7], files := parentCommit.files.insert "a" (plainFile 2 4) }

/-- It has that file as the parent has it, and another one. -/
def otherCommit : Commit :=
  { oneFile "a" with
    files := ((∅ : ExtTreeMap String FileEntry).insert "a" (plainFile 2 3)).insert "b" (plainFile 8 9) }

theorem file_is_picked_and_reverted : ∃ picked again reverted,
    picked.files.toList = [("a", plainFile 2 4), ("b", plainFile 8 9)] ∧
    Recovery.plan lenient changingCommit .cherryPick picked (some parentCommit) = .ok again ∧
      again.changes.conflicts = [] ∧ again.changes.files = picked.files ∧
    Recovery.plan lenient changingCommit .revert picked (some parentCommit) = .ok reverted ∧
      reverted.changes.conflicts = [] ∧ reverted.changes.files = otherCommit.files := by
  have runs : ((Recovery.plan lenient changingCommit .cherryPick otherCommit (some parentCommit)).bind
      fun first => (first.resolve lenient ∅ 0 "").map fun picked =>
        (first.changes.conflicts.length, picked.files.toList)).toOption =
          some (0, [("a", plainFile 2 4), ("b", plainFile 8 9)]) := by
    decide +kernel
  obtain ⟨first, planned, rest⟩ := bind_eq_ok.1 (toOption_eq_some.1 runs)
  obtain ⟨picked, resolved, same⟩ := map_eq_ok.1 rest
  obtain ⟨free, files⟩ := Prod.mk.inj same
  obtain ⟨⟨again, twice⟩, back⟩ := picked_change_is_reverted lenient changingCommit otherCommit picked
    (some parentCommit) first ∅ 0 "" planned (length_eq_zero_iff.1 free) resolved
  obtain ⟨reverted, undone⟩ := back fun path changed => by
    -- only the one file was changed
    obtain rfl : path = "a" := by
      by_contra other
      refine changed ?_
      simp [changingCommit, Recovery.baseline, OrderedMap.getElem?_insert, other]
    decide +kernel
  exact ⟨picked, again, reverted, files, twice.1, twice.2.1, twice.2.2, undone⟩

end Dynodoc.Repository
