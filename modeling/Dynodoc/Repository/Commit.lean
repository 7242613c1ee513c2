import Dynodoc.Authority.Statement
import Dynodoc.Checkpoint.Content
import Dynodoc.Lib.Loop

/-! Commits of a project: which paths hold which states of which documents, on top of which
parents. SHA-256, Ed25519 and the JSON texts are parameters; addresses are 32 bytes that the source
spells in hexadecimal. -/
namespace Dynodoc.Repository
open Std (ExtTreeMap)
open Log (Uuid utf8)
open Checkpoint (Address)
open Authority (isNil)
open Text (isControl)
open Loop

inductive Error where
  | invalid (what : String)
  | limit (what : String)
  | staleRef
  | missing (commit : Address)
  | db
  | json
  | object (e : Checkpoint.Error)
  deriving DecidableEq

structure FileEntry where
  document : Uuid
  state : Address
  deriving DecidableEq

/-- A path that was merged automatically, with the states it was merged from. -/
structure Resolution where
  path : String
  document : Uuid
  base : Address
  left : Address
  right : Address
  merged : Address
  strategy : String
  deriving DecidableEq

inductive RecoveryKind where
  | cherryPick
  | revert
  deriving DecidableEq

structure RecoverySource where
  kind : RecoveryKind
  commit : Address
  mainline : Option Address
  deriving DecidableEq

structure Commit where
  version : Nat
  project : Uuid
  parents : List Address
  files : ExtTreeMap String FileEntry
  authorKey : String
  authoredAtMs : Int
  message : String
  recovery : Option RecoverySource
  sameFileResolutions : List Resolution
  deriving DecidableEq

structure SignedCommit where
  commit : Commit
  signature : String
  deriving DecidableEq

def maxFiles : Nat := 4096
def maxCommitBytes : Nat := 1024 * 1024
def maxReportedFiles : Nat := 64
def strategy : String := "dynodoc.same-file.node-field.v1"

/-- `commitText` is canonical JSON. -/
structure Externals where
  sha256 : List UInt8 → Address
  commitText : Commit → List UInt8
  ed25519 : (key message signature : List UInt8) → Bool

def unhex (value : String) (size : Nat) : Except Error (List UInt8) :=
  match Authority.unhex value size with
  | .ok bytes => .ok bytes
  | .error _ => .error (.invalid "hex encoding")

def validPath (path : String) : Bool :=
  let chars := path.toList
  path ≠ "" && path.utf8ByteSize ≤ 1024 && !chars.any (fun c => c = '\\' || c = ':') &&
    !chars.any isControl &&
    (chars.splitOn '/').all fun part => part ≠ [] && part ≠ ['.'] && part ≠ ['.', '.']

/-- What stands before each slash of a path. -/
def directories (path : String) : List String :=
  let chars := path.toList
  ((List.range chars.length).filter fun i => chars[i]? = some '/').map fun i =>
    String.ofList (chars.take i)

namespace Commit

variable (commit : Commit)

def validShape : Bool :=
  let merged := commit.sameFileResolutions ≠ []
  ((commit.version = 1 && commit.recovery.isNone && !merged) ||
      (commit.version = 2 && commit.recovery.isSome && !merged) ||
      (commit.version = 3 && commit.recovery.isNone && merged)) &&
    !(commit.recovery.isSome && commit.parents.length ≠ 1) &&
    !(commit.version = 3 && commit.parents.length ≠ 2) && !isNil commit.project &&
    commit.parents.length ≤ 2 &&
    !(commit.parents.length = 2 && commit.parents[0]? = commit.parents[1]?) &&
    0 ≤ commit.authoredAtMs && commit.message.utf8ByteSize ≤ 4096

def checkFile (documents : List Uuid) (entry : String × FileEntry) : Except Error (List Uuid) :=
  if ¬ validPath entry.1 ∨ isNil entry.2.document ∨ entry.2.document ∈ documents then
    .error (.invalid "file path or duplicate document identity")
  else if (directories entry.1).any fun directory => directory ∈ commit.files then
    .error (.invalid "file/directory collision")
  else .ok (entry.2.document :: documents)

def checkResolution (resolved : List String) (record : Resolution) : Except Error (List String) :=
  match commit.files[record.path]? with
  | none => .error (.invalid "same-file resolution path")
  | some file =>
    if record.path ∈ resolved ∨ file.document ≠ record.document ∨ file.state ≠ record.merged ∨
        record.strategy ≠ strategy ∨ record.left = record.right ∨ record.base = record.left ∨
        record.base = record.right then
      .error (.invalid "same-file resolution record")
    else .ok (record.path :: resolved)

def validate : Except Error Unit :=
  if ¬ commit.validShape then .error (.invalid "commit metadata")
  else do
    let _ ← unhex commit.authorKey 32
    if maxFiles < commit.files.size then .error (.limit "project files")
    else do
      let _ ← commit.files.toList.foldlM commit.checkFile []
      if maxReportedFiles < commit.sameFileResolutions.length then .error (.limit "same-file resolutions")
      else do
        let _ ← commit.sameFileResolutions.foldlM commit.checkResolution []
        .ok ()

variable (env : Externals)

def bytes : Except Error (List UInt8) := do
  commit.validate
  let bytes := env.commitText commit
  if maxCommitBytes < bytes.length then .error (.limit "commit bytes") else .ok bytes

def domain (version : Nat) : String :=
  if version = 1 then "dynodoc.project-commit\x00v1\x00"
  else if version = 2 then "dynodoc.project-commit\x00v2\x00"
  else "dynodoc.project-commit\x00v3\x00"

def signatureDomain (version : Nat) : String :=
  if version = 1 then "dynodoc.project-commit-signature\x00v1\x00"
  else if version = 2 then "dynodoc.project-commit-signature\x00v2\x00"
  else "dynodoc.project-commit-signature\x00v3\x00"

def address : Except Error Address := do
  let bytes ← commit.bytes env
  .ok (env.sha256 (utf8 (domain commit.version) ++ bytes))

end Commit

/-- What the loop over the files of a commit has checked. -/
structure FilesChecked (commit : Commit) (done : List (String × FileEntry))
    (documents : List Uuid) : Prop where
  known : documents.reverse = done.map fun entry => entry.2.document
  distinct : documents.Nodup
  paths : ∀ entry ∈ done, validPath entry.1
  free : ∀ entry ∈ done, ∀ directory ∈ directories entry.1, directory ∉ commit.files

theorem FilesChecked.step {commit : Commit} {done : List (String × FileEntry)} {entry : String × FileEntry}
    {documents documents' : List Uuid} (checked : FilesChecked commit done documents)
    (accepted : commit.checkFile documents entry = .ok documents') :
    FilesChecked commit (done ++ [entry]) documents' := by
  obtain ⟨isNew, accepted⟩ := guard_eq_ok.1 accepted
  obtain ⟨noFile, accepted⟩ := guard_eq_ok.1 accepted
  cases accepted
  simp only [not_or, not_not] at isNew
  refine ⟨by simp [checked.known], List.nodup_cons.2 ⟨isNew.2.2, checked.distinct⟩, fun e mem => ?_,
    fun e mem => ?_⟩
  · rcases List.mem_append.1 mem with mem | mem
    · exact checked.paths e mem
    · rw [List.mem_singleton.1 mem]
      exact isNew.1
  · rcases List.mem_append.1 mem with mem | mem
    · exact checked.free e mem
    · rw [List.mem_singleton.1 mem]
      simpa using noFile

theorem filesChecked_of_validate {commit : Commit} (valid : commit.validate = .ok ()) :
    ∃ documents, FilesChecked commit commit.files.toList documents ∧ commit.files.size ≤ maxFiles := by
  obtain ⟨-, valid⟩ := guard_eq_ok.1 valid
  obtain ⟨-, -, valid⟩ := bind_eq_ok.1 valid
  obtain ⟨few, valid⟩ := guard_eq_ok.1 valid
  obtain ⟨documents, run, -⟩ := bind_eq_ok.1 valid
  exact ⟨documents, foldlM_post (FilesChecked commit) (fun _ _ _ _ _ checked => checked.step)
    ⟨rfl, .nil, by simp, by simp⟩ run, Nat.le_of_not_lt few⟩

def SignedCommit.verify (signed : SignedCommit) (env : Externals) : Except Error Address := do
  let address ← signed.commit.address env
  let key ← unhex signed.commit.authorKey 32
  let signature ← unhex signed.signature 64
  if env.ed25519 key (utf8 (Commit.signatureDomain signed.commit.version) ++ address.1) signature then
    .ok address
  else .error (.invalid "commit signature")

/-- Hashes are all alike and signatures all valid. -/
def lenient : Externals where
  sha256 := fun _ => Checkpoint.plainAddress 7
  commitText := fun _ => []
  ed25519 := fun _ _ _ => true

structure FileConflict where
  path : String
  base : Option FileEntry
  left : Option FileEntry
  right : Option FileEntry

structure ProjectPlan where
  files : ExtTreeMap String FileEntry
  conflicts : List FileConflict

section Compare

variable (base left right : Commit)

/-- The side of a path that changed; nothing when both did, and differently. -/
def chosenFile (path : String) : Option (Option FileEntry) :=
  let b := base.files[path]?
  let l := left.files[path]?
  let r := right.files[path]?
  if l = r ∨ r = b then some l else if l = b then some r else none

def conflictAt (path : String) : FileConflict :=
  ⟨path, base.files[path]?, left.files[path]?, right.files[path]?⟩

def choosePath (plan : ProjectPlan) (path : String) : ProjectPlan :=
  match chosenFile base left right path with
  | some (some file) => { plan with files := plan.files.insert path file }
  | some none => plan
  | none => { plan with conflicts := plan.conflicts ++ [conflictAt base left right path] }

/-- The paths of planned files that clash with another one: one document twice, or a file where
another path has a directory. -/
def clashesOf (files : ExtTreeMap String FileEntry) (found : ExtTreeMap Uuid String × Std.ExtTreeSet String)
    (entry : String × FileEntry) : ExtTreeMap Uuid String × Std.ExtTreeSet String :=
  let invalid :=
    match found.1[entry.2.document]? with
    | some other => (found.2.insert other).insert entry.1
    | none => found.2
  (found.1.insert entry.2.document entry.1,
    (directories entry.1).foldl (fun invalid directory =>
      if directory ∈ files then (invalid.insert directory).insert entry.1 else invalid) invalid)

def clashes (files : ExtTreeMap String FileEntry) : List String :=
  (files.toList.foldl (clashesOf files) (∅, ∅)).2.toList

def plan : Except Error ProjectPlan := do
  base.validate
  left.validate
  right.validate
  if base.project ≠ left.project ∨ base.project ≠ right.project then
    .error (.invalid "merge project scope")
  else
    let paths := (Std.ExtTreeSet.ofList (base.files.keys ++ left.files.keys ++ right.files.keys)).toList
    let chosen := paths.foldl (choosePath base left right) ⟨∅, []⟩
    let result := (clashes chosen.files).foldl (fun plan path =>
      ⟨plan.files.erase path, plan.conflicts ++ [conflictAt base left right path]⟩) chosen
    .ok { result with conflicts := Sorted.sortBy (compareOn FileConflict.path) result.conflicts }

end Compare

end Dynodoc.Repository
