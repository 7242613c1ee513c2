import Dynodoc.Repository.Commit

/-! The three-way plan of the files of a project. Each path is settled on its own; files that then
stand in one another's way are withdrawn, all of them, and reported as conflicts. -/
namespace Dynodoc.Repository
open Std (ExtTreeMap ExtTreeSet)
open Checkpoint (plainAddress)
open Log (Uuid plainUuid)
open Sorted OrderedMap Loop
open List hiding getElem?_insert

variable {path : String}

section Choice

variable {α : Type} {b l r o : Option α}

/-- The side that changed wins; when both did, they have to agree. -/
def Chosen (b l r o : Option α) : Prop := l = b ∧ o = r ∨ r = b ∧ o = l ∨ l = r ∧ o = l

def ChangedApart (b l r : Option α) : Prop := l ≠ b ∧ r ≠ b ∧ l ≠ r

theorem Chosen.swap (chosen : Chosen b l r o) : Chosen b r l o := by
  rcases chosen with ⟨rfl, rfl⟩ | ⟨rfl, rfl⟩ | ⟨rfl, rfl⟩
  · exact .inr (.inl ⟨rfl, rfl⟩)
  · exact .inl ⟨rfl, rfl⟩
  · exact .inr (.inr ⟨rfl, rfl⟩)

theorem Chosen.unique {o' : Option α} (chosen : Chosen b l r o) (chosen' : Chosen b l r o') : o = o' := by
  rcases chosen with ⟨rfl, rfl⟩ | ⟨rfl, rfl⟩ | ⟨rfl, rfl⟩ <;>
    rcases chosen' with ⟨same, rfl⟩ | ⟨same, rfl⟩ | ⟨same, rfl⟩ <;> simp_all

theorem Chosen.not_apart (chosen : Chosen b l r o) : ¬ ChangedApart b l r := by
  rintro ⟨left, right, differ⟩
  rcases chosen with ⟨same, -⟩ | ⟨same, -⟩ | ⟨same, -⟩
  · exact left same
  · exact right same
  · exact differ same

end Choice

section Clashes

variable {entry : String × FileEntry} {done : List (String × FileEntry)}
  {found : ExtTreeMap Uuid String × ExtTreeSet String}

/-- A path that has a directory where the other has a file. -/
def Below (path directory : String) : Prop := ∃ rest, path = directory ++ "/" ++ rest

/-- Two files that cannot stand in one project. -/
def Clash (stands : String → FileEntry → Prop) (path other : String) : Prop :=
  path ≠ other ∧ ∃ file file', stands path file ∧ stands other file' ∧
    (file.document = file'.document ∨ Below path other ∨ Below other path)

variable {directory : String}

theorem mem_directories : directory ∈ directories path ↔ Below path directory := by
  simp only [directories, mem_map, mem_filter, mem_range, decide_eq_true_eq]
  constructor
  · rintro ⟨i, ⟨inside, slash⟩, rfl⟩
    refine ⟨String.ofList (path.toList.drop (i + 1)), String.toList_inj.1 ?_⟩
    have isSlash : path.toList[i] = '/' := by rwa [getElem?_eq_getElem inside, Option.some_inj] at slash
    conv => lhs; rw [← take_append_drop i path.toList, drop_eq_getElem_cons inside, isSlash]
    simp
  · rintro ⟨rest, rfl⟩
    refine ⟨directory.toList.length, ⟨?_, ?_⟩, ?_⟩ <;> simp

theorem Below.ne (below : Below path directory) : path ≠ directory := by
  rintro rfl
  obtain ⟨rest, same⟩ := below
  have lengths := congrArg String.length same
  simp only [String.length_append] at lengths
  have slash : "/".length = 1 := rfl
  omega

variable (files : ExtTreeMap String FileEntry)

def Repeated (done : List (String × FileEntry)) (path : String) : Prop :=
  ∃ entry ∈ done, ∃ entry' ∈ done, entry.1 ≠ entry'.1 ∧ entry.2.document = entry'.2.document ∧
    path = entry.1

/-- The path is a file where another one has a directory, or the other way round. -/
def Blocked (done : List (String × FileEntry)) (path : String) : Prop :=
  ∃ entry ∈ done, ∃ directory ∈ directories entry.1, directory ∈ files ∧
    (path = directory ∨ path = entry.1)

/-- What the loop over the files has found: for each document the last path, and the paths that
clash. -/
structure Scanned (done : List (String × FileEntry)) (found : ExtTreeMap Uuid String × ExtTreeSet String) :
    Prop where
  last : ∀ document path, found.1[document]? = some path →
    ∃ entry ∈ done, entry.1 = path ∧ entry.2.document = document
  seen : ∀ entry ∈ done, ∃ path, found.1[entry.2.document]? = some path
  marked : ∀ path, path ∈ found.2 ↔ Repeated done path ∨ Blocked files done path

theorem repeated_concat (new : ∀ other ∈ done, other.1 ≠ entry.1) :
    Repeated (done ++ [entry]) path ↔ Repeated done path ∨
      ∃ other ∈ done, other.2.document = entry.2.document ∧ (path = other.1 ∨ path = entry.1) := by
  constructor
  · rintro ⟨e, mem, e', mem', differ, same, rfl⟩
    rw [mem_append, mem_singleton] at mem mem'
    rcases mem with mem | rfl <;> rcases mem' with mem' | rfl
    · exact .inl ⟨e, mem, e', mem', differ, same, rfl⟩
    · exact .inr ⟨e, mem, same, .inl rfl⟩
    · exact .inr ⟨e', mem', same.symm, .inr rfl⟩
    · exact absurd rfl differ
  · rintro (⟨e, mem, e', mem', facts⟩ | ⟨other, mem, same, rfl | rfl⟩)
    · exact ⟨e, by simp [mem], e', by simp [mem'], facts⟩
    · exact ⟨other, by simp [mem], entry, by simp, new other mem, same, rfl⟩
    · exact ⟨entry, by simp, other, by simp [mem], (new other mem).symm, same.symm, rfl⟩

theorem blocked_concat : Blocked files (done ++ [entry]) path ↔ Blocked files done path ∨
      ∃ directory ∈ directories entry.1, directory ∈ files ∧ (path = directory ∨ path = entry.1) := by
  simp [Blocked]

theorem mem_foldl_directories {invalid : ExtTreeSet String} {all : List String} {name : String} :
    path ∈ all.foldl (fun invalid directory =>
        if directory ∈ files then (invalid.insert directory).insert name else invalid) invalid ↔
      path ∈ invalid ∨ ∃ directory ∈ all, directory ∈ files ∧ (path = directory ∨ path = name) := by
  induction all generalizing invalid with
  | nil => simp
  | cons directory all ih =>
    rw [foldl_cons, ih]
    split
    · rename_i isFile
      grind
    · rename_i noFile
      simp [noFile]

/-- The marks after the documents were compared. -/
def sameDocument (found : ExtTreeMap Uuid String × ExtTreeSet String) (entry : String × FileEntry) :
    ExtTreeSet String :=
  match found.1[entry.2.document]? with
  | some other => (found.2.insert other).insert entry.1
  | none => found.2

theorem mem_clashesOf : path ∈ (clashesOf files found entry).2 ↔ path ∈ sameDocument found entry ∨
      ∃ directory ∈ directories entry.1, directory ∈ files ∧ (path = directory ∨ path = entry.1) :=
  mem_foldl_directories files

/-- The two paths that the loop marks when it meets a document again are enough: any earlier one
with that document was marked before. -/
theorem Scanned.mem_sameDocument (scanned : Scanned files done found)
    (new : ∀ other ∈ done, other.1 ≠ entry.1) :
    path ∈ sameDocument found entry ↔ Repeated (done ++ [entry]) path ∨ Blocked files done path := by
  rw [repeated_concat new, sameDocument]
  split
  · rename_i other isLast
    obtain ⟨met, mem, rfl, same⟩ := scanned.last _ _ isLast
    simp only [ExtTreeSet.mem_insert, Std.compare_eq_iff_eq, scanned.marked]
    constructor
    · rintro (rfl | rfl | marked | blocked)
      · exact .inl (.inr ⟨met, mem, same, .inr rfl⟩)
      · exact .inl (.inr ⟨met, mem, same, .inl rfl⟩)
      · exact .inl (.inl marked)
      · exact .inr blocked
    · rintro ((marked | ⟨earlier, mem', same', rfl | rfl⟩) | blocked)
      · exact .inr (.inr (.inl marked))
      · by_cases isMet : met.1 = earlier.1
        · exact .inr (.inl isMet)
        · exact .inr (.inr (.inl ⟨earlier, mem', met, mem, Ne.symm isMet, same'.trans same.symm, rfl⟩))
      · exact .inl rfl
      · exact .inr (.inr (.inr blocked))
  · rename_i unseen
    rw [scanned.marked]
    constructor
    · rintro (marked | blocked)
      · exact .inl (.inl marked)
      · exact .inr blocked
    · rintro ((marked | ⟨earlier, mem, same, -⟩) | blocked)
      · exact .inl marked
      · obtain ⟨path, isLast⟩ := scanned.seen earlier mem
        rw [same, unseen] at isLast
        contradiction
      · exact .inr blocked

theorem Scanned.step (scanned : Scanned files done found) (new : ∀ other ∈ done, other.1 ≠ entry.1) :
    Scanned files (done ++ [entry]) (clashesOf files found entry) := by
  constructor
  · intro document path isLast
    rw [clashesOf, getElem?_insert] at isLast
    split at isLast
    · rename_i same
      cases isLast
      exact ⟨entry, by simp, rfl, same.symm⟩
    · obtain ⟨other, mem, facts⟩ := scanned.last document path isLast
      exact ⟨other, by simp [mem], facts⟩
  · intro other mem
    rw [clashesOf, getElem?_insert]
    split
    · exact ⟨_, rfl⟩
    · rename_i differ
      rcases mem_append.1 mem with mem | mem
      · exact scanned.seen other mem
      · rw [mem_singleton] at mem
        exact absurd (congrArg (fun e : String × FileEntry => e.2.document) mem) differ
  · intro path
    rw [mem_clashesOf, scanned.mem_sameDocument files new, blocked_concat, or_assoc]

theorem scanned_all {rest done : List (String × FileEntry)} (scanned : Scanned files done found)
    (distinct : ((done ++ rest).map Prod.fst).Nodup) :
    Scanned files (done ++ rest) (rest.foldl (clashesOf files) found) := by
  induction rest generalizing done found with
  | nil => rwa [append_nil]
  | cons entry rest ih =>
    have new : ∀ other ∈ done, other.1 ≠ entry.1 := by
      intro other mem same
      rw [map_append, nodup_append] at distinct
      exact distinct.2.2 _ (mem_map_of_mem mem) _ (by simp) same
    have step := ih (scanned.step files new) (by simpa using distinct)
    simpa using step

theorem mem_clashes : path ∈ clashes files ↔ ∃ other, Clash (files[·]? = some ·) path other := by
  have nothing : Scanned files [] (∅, ∅) := ⟨by simp, by simp, by simp [Repeated, Blocked]⟩
  have scanned := scanned_all files nothing
    (show ((([] : List (String × FileEntry)) ++ files.toList).map Prod.fst).Nodup by
      rw [nil_append, ExtTreeMap.map_fst_toList_eq_keys]
      exact ExtTreeMap.nodup_keys)
  rw [clashes, ExtTreeSet.mem_toList, scanned.marked, nil_append]
  constructor
  · rintro (⟨entry, mem, entry', mem', differ, same, rfl⟩ | ⟨entry, mem, directory, isDir, isFile, isPath⟩)
    · rw [ExtTreeMap.mem_toList_iff_getElem?_eq_some] at mem mem'
      exact ⟨entry'.1, differ, _, _, mem, mem', .inl same⟩
    · have below := mem_directories.1 isDir
      have found := ExtTreeMap.mem_toList_iff_getElem?_eq_some.1 mem
      obtain ⟨file, found'⟩ := mem_iff_exists.1 isFile
      rcases isPath with rfl | rfl
      · exact ⟨entry.1, below.ne.symm, _, _, found', found, .inr (.inr below)⟩
      · exact ⟨directory, below.ne, _, _, found, found', .inr (.inl below)⟩
  · rintro ⟨other, differ, file, file', found, found', same | below | below⟩
    · exact .inl ⟨(path, file), ExtTreeMap.mem_toList_iff_getElem?_eq_some.2 found, (other, file'),
        ExtTreeMap.mem_toList_iff_getElem?_eq_some.2 found', differ, same, rfl⟩
    · exact .inr ⟨(path, file), ExtTreeMap.mem_toList_iff_getElem?_eq_some.2 found, other,
        mem_directories.2 below, of_getElem?_eq_some found', .inr rfl⟩
    · exact .inr ⟨(other, file'), ExtTreeMap.mem_toList_iff_getElem?_eq_some.2 found', path,
        mem_directories.2 below, of_getElem?_eq_some found, .inl rfl⟩

end Clashes

section Settling

variable (base left right : Commit)
variable {file : FileEntry}

def ChosenAt (path : String) (file : Option FileEntry) : Prop :=
  Chosen base.files[path]? left.files[path]? right.files[path]? file

def ChangedApartAt (path : String) : Prop :=
  ChangedApart base.files[path]? left.files[path]? right.files[path]?

def Occurs (path : String) : Prop := path ∈ base.files ∨ path ∈ left.files ∨ path ∈ right.files

variable {base left right}

theorem chosenFile_eq_none :
    chosenFile base left right path = none ↔ ChangedApartAt base left right path := by
  unfold chosenFile ChangedApartAt ChangedApart
  grind

theorem chosenFile_eq_some {file : Option FileEntry} :
    chosenFile base left right path = some file ↔ ChosenAt base left right path file := by
  unfold chosenFile ChosenAt Chosen
  grind

theorem chosenFile_swap : chosenFile base right left path = chosenFile base left right path := by
  cases chosen : chosenFile base left right path with
  | none =>
    obtain ⟨left, right, differ⟩ := chosenFile_eq_none.1 chosen
    exact chosenFile_eq_none.2 ⟨right, left, differ.symm⟩
  | some file => exact chosenFile_eq_some.2 (chosenFile_eq_some.1 chosen).swap

theorem occurs_of_chosen (chosen : ChosenAt base left right path (some file)) :
    Occurs base left right path := by
  unfold Occurs
  simp only [ExtTreeMap.mem_iff_isSome_getElem?]
  rcases chosen with ⟨-, same⟩ | ⟨-, same⟩ | ⟨-, same⟩ <;> simp [← same]

theorem occurs_of_apart (apart : ChangedApartAt base left right path) : Occurs base left right path := by
  by_contra nowhere
  simp only [Occurs, not_or] at nowhere
  refine apart.1 ?_
  rw [getElem?_eq_none_iff.2 nowhere.1, getElem?_eq_none_iff.2 nowhere.2.1]

theorem choosePath_conflicts (plan : ProjectPlan) (path : String) :
    (choosePath base left right plan path).conflicts = plan.conflicts ++
      ([path].filter fun path => chosenFile base left right path = none).map
        (conflictAt base left right) := by
  unfold choosePath
  split <;> rename_i chosen <;> simp [chosen]

theorem choosePath_files (plan : ProjectPlan) (path other : String) :
    (choosePath base left right plan path).files[other]? =
      if other = path then (chosenFile base left right path).join.or plan.files[other]?
      else plan.files[other]? := by
  unfold choosePath
  split <;> rename_i chosen <;> simp [chosen]

theorem foldl_choosePath_conflicts (paths : List String) (plan : ProjectPlan) :
    (paths.foldl (choosePath base left right) plan).conflicts = plan.conflicts ++
      (paths.filter fun path => chosenFile base left right path = none).map
        (conflictAt base left right) := by
  induction paths generalizing plan with
  | nil => simp
  | cons path paths ih =>
    rw [foldl_cons, ih, choosePath_conflicts, append_assoc, ← map_append,
      ← filter_append, singleton_append]

theorem foldl_choosePath_files (paths : List String) (plan : ProjectPlan) :
    (paths.foldl (choosePath base left right) plan).files[path]? =
      (if path ∈ paths then (chosenFile base left right path).join else none).or plan.files[path]? := by
  induction paths generalizing plan with
  | nil => simp
  | cons first paths ih =>
    rw [foldl_cons, ih, choosePath_files]
    by_cases here : path = first
    · subst here
      by_cases later : path ∈ paths <;> cases (chosenFile base left right path).join <;> simp [later]
    · simp [here]

def allPaths (base left right : Commit) : List String :=
  (ExtTreeSet.ofList (base.files.keys ++ left.files.keys ++ right.files.keys)).toList

theorem mem_allPaths : path ∈ allPaths base left right ↔ Occurs base left right path := by
  simp [allPaths, Occurs]

theorem allPaths_swap : allPaths base right left = allPaths base left right := by
  unfold allPaths
  congr 1
  refine ExtTreeSet.ext_mem fun path => ?_
  simp only [ExtTreeSet.mem_ofList, contains_iff_mem, mem_append]
  tauto

theorem allPaths_nodup : (allPaths base left right).Nodup :=
  ExtTreeSet.distinct_toList.imp fun apart same => apart (Std.compare_eq_iff_eq.2 same)

def settleAll (base left right : Commit) : ProjectPlan :=
  (allPaths base left right).foldl (choosePath base left right) ⟨∅, []⟩

theorem settleAll_files :
    (settleAll base left right).files[path]? = some file ↔ ChosenAt base left right path (some file) := by
  rw [settleAll, foldl_choosePath_files, ← chosenFile_eq_some]
  split
  · simp [Option.join_eq_some_iff]
  · rename_i nowhere
    have notChosen : chosenFile base left right path ≠ some (some file) := fun chosen =>
      nowhere (mem_allPaths.2 (occurs_of_chosen (chosenFile_eq_some.1 chosen)))
    simp [notChosen]

variable (clashing : List String)

theorem foldl_withdraw (plan : ProjectPlan) :
    clashing.foldl (fun plan path =>
        (⟨plan.files.erase path, plan.conflicts ++ [conflictAt base left right path]⟩ : ProjectPlan)) plan =
      ⟨clashing.foldl (fun files path => files.erase path) plan.files,
        plan.conflicts ++ clashing.map (conflictAt base left right)⟩ := by
  induction clashing generalizing plan with
  | nil => simp
  | cons path clashing ih => simp [ih]

theorem foldl_erase (files : ExtTreeMap String FileEntry) :
    (clashing.foldl (fun files path => files.erase path) files)[path]? =
      if path ∈ clashing then none else files[path]? := by
  induction clashing generalizing files with
  | nil => simp
  | cons first clashing ih =>
    rw [foldl_cons, ih]
    by_cases here : path = first <;> simp [here]

/-- The paths in conflict, in the order in which the two passes find them. -/
def reportedPaths (base left right : Commit) : List String :=
  ((allPaths base left right).filter fun path => chosenFile base left right path = none) ++
    clashes (settleAll base left right).files

def settled (base left right : Commit) : ProjectPlan where
  files := (clashes (settleAll base left right).files).foldl (fun files path => files.erase path)
    (settleAll base left right).files
  conflicts := sortBy (compareOn FileConflict.path)
    ((reportedPaths base left right).map (conflictAt base left right))

theorem plan_eq_settled (validBase : base.validate = .ok ()) (validLeft : left.validate = .ok ())
    (validRight : right.validate = .ok ()) (sameLeft : base.project = left.project)
    (sameRight : base.project = right.project) :
    plan base left right = .ok (settled base left right) := by
  unfold plan settled
  rw [validBase, validLeft, validRight]
  dsimp only [bind, Except.bind]
  rw [if_neg (by simp [← sameLeft, ← sameRight]), foldl_withdraw, reportedPaths, map_append]
  have conflicts : (settleAll base left right).conflicts = _ := foldl_choosePath_conflicts _ _
  rw [nil_append] at conflicts
  rw [← conflicts]
  rfl

theorem mem_settled_clashes : path ∈ clashes (settleAll base left right).files ↔
    ∃ other, Clash (fun path file => ChosenAt base left right path (some file)) path other := by
  rw [mem_clashes]
  simp [settleAll_files]

theorem settled_files : (settled base left right).files[path]? = some file ↔
    ChosenAt base left right path (some file) ∧
      ¬ ∃ other, Clash (fun path file => ChosenAt base left right path (some file)) path other := by
  rw [settled, foldl_erase, ← mem_settled_clashes]
  split
  · simp [*]
  · simp [*, settleAll_files]

theorem mem_reportedPaths : path ∈ reportedPaths base left right ↔
    ChangedApartAt base left right path ∨
      ∃ other, Clash (fun path file => ChosenAt base left right path (some file)) path other := by
  rw [reportedPaths, mem_append, mem_settled_clashes, mem_filter, mem_allPaths, decide_eq_true_eq,
    chosenFile_eq_none]
  refine or_congr_left ⟨And.right, fun apart => ⟨occurs_of_apart apart, apart⟩⟩

theorem reportedPaths_nodup : (reportedPaths base left right).Nodup := by
  refine List.Nodup.append (allPaths_nodup.filter _)
    (ExtTreeSet.distinct_toList.imp fun apart same => apart (Std.compare_eq_iff_eq.2 same)) ?_
  intro path apart clashing
  obtain ⟨other, -, file, _, chosen, -⟩ := mem_settled_clashes.1 clashing
  have noneChosen : chosenFile base left right path = none := by simpa using (mem_filter.1 apart).2
  exact chosen.not_apart (chosenFile_eq_none.1 noneChosen)

/-- The same plan with the two sides exchanged. -/
def FileConflict.mirror (conflict : FileConflict) : FileConflict :=
  ⟨conflict.path, conflict.base, conflict.right, conflict.left⟩

def ProjectPlan.mirror (plan : ProjectPlan) : ProjectPlan :=
  ⟨plan.files, plan.conflicts.map FileConflict.mirror⟩

open FileConflict

theorem settled_swap : settled base right left = (settled base left right).mirror := by
  have files : (settleAll base right left).files = (settleAll base left right).files := by
    refine ExtTreeMap.ext_getElem? fun path => Option.ext fun file => ?_
    rw [settleAll_files, settleAll_files]
    exact ⟨Chosen.swap, Chosen.swap⟩
  have mirrored : conflictAt base right left = mirror ∘ conflictAt base left right := rfl
  have paths : reportedPaths base right left = reportedPaths base left right := by
    unfold reportedPaths
    simp [files, allPaths_swap, chosenFile_swap]
  have keeps (a b : FileConflict) :
      compareOn path a b = compareOn path a.mirror b.mirror := rfl
  unfold settled ProjectPlan.mirror
  rw [files, paths, mirrored, ← map_map]
  congr 1
  exact (map_sortBy mirror keeps _).symm

structure DecidesPaths (base left right : Commit) (result : ProjectPlan) : Prop where
  occurs : ∀ path, path ∈ result.files ∨ path ∈ result.conflicts.map FileConflict.path →
    Occurs base left right path
  /-- Each path is a planned file, a conflict or absent. -/
  covered : ∀ path, Occurs base left right path → path ∈ result.files ∨
    path ∈ result.conflicts.map FileConflict.path ∨ ChosenAt base left right path none
  apart : ∀ path, ¬ (path ∈ result.files ∧ path ∈ result.conflicts.map FileConflict.path) ∧
    ¬ (path ∈ result.files ∧ ChosenAt base left right path none) ∧
    ¬ (path ∈ result.conflicts.map FileConflict.path ∧ ChosenAt base left right path none)
  chosen : ∀ path file, result.files[path]? = some file → ChosenAt base left right path (some file)
  documents : ∀ (path other : String) (file file' : FileEntry), result.files[path]? = some file →
    result.files[other]? = some file' → file.document = file'.document → path = other
  directories : ∀ path ∈ result.files, ∀ other ∈ result.files, ¬ Below path other
  conflicts : ∀ path, path ∈ result.conflicts.map FileConflict.path ↔ ChangedApartAt base left right path ∨
    ∃ other, Clash (fun path file => ChosenAt base left right path (some file)) path other
  reported : ∀ conflict ∈ result.conflicts, conflict = conflictAt base left right conflict.path
  sorted : (result.conflicts.map FileConflict.path).Pairwise fun path other => compare path other = .lt

theorem settled_conflicts_map : (settled base left right).conflicts.map FileConflict.path =
    sortBy compare (reportedPaths base left right) := by
  have named : FileConflict.path ∘ conflictAt base left right = id := rfl
  have keeps (a b : FileConflict) : compareOn FileConflict.path a b = compare a.path b.path := rfl
  exact (map_sortBy FileConflict.path keeps _).trans (by rw [map_map, named, map_id])

theorem settled_conflicts : path ∈ (settled base left right).conflicts.map FileConflict.path ↔
    ChangedApartAt base left right path ∨
      ∃ other, Clash (fun path file => ChosenAt base left right path (some file)) path other := by
  rw [settled_conflicts_map, mem_sortBy, mem_reportedPaths]

theorem mem_settled_files : path ∈ (settled base left right).files ↔
    ∃ file, (settled base left right).files[path]? = some file := by
  rw [mem_iff_exists]

theorem settled_decides : DecidesPaths base left right (settled base left right) where
  occurs := by
    rintro path (isFile | inConflict)
    · obtain ⟨file, found⟩ := mem_settled_files.1 isFile
      exact occurs_of_chosen (settled_files.1 found).1
    · rcases settled_conflicts.1 inConflict with apart | ⟨other, -, file, _, chosen, -⟩
      · exact occurs_of_apart apart
      · exact occurs_of_chosen chosen
  covered := by
    intro path occurs
    rw [settled_conflicts, mem_settled_files]
    cases chosen : chosenFile base left right path with
    | none => exact .inr (.inl (.inl (chosenFile_eq_none.1 chosen)))
    | some choice =>
      have chosen := chosenFile_eq_some.1 chosen
      cases choice with
      | none => exact .inr (.inr chosen)
      | some file =>
        by_cases clash : ∃ other, Clash (fun path file => ChosenAt base left right path (some file))
          path other
        · exact .inr (.inl (.inr clash))
        · exact .inl ⟨file, settled_files.2 ⟨chosen, clash⟩⟩
  apart := by
    intro path
    rw [settled_conflicts, mem_settled_files]
    refine ⟨?_, ?_, ?_⟩
    · rintro ⟨⟨file, found⟩, apart | clash⟩
      · exact (settled_files.1 found).1.not_apart apart
      · exact (settled_files.1 found).2 clash
    · rintro ⟨⟨file, found⟩, absent⟩
      exact nomatch (settled_files.1 found).1.unique absent
    · rintro ⟨apart | ⟨_, -, file, _, chosen, -⟩, absent⟩
      · exact absent.not_apart apart
      · exact nomatch chosen.unique absent
  chosen := fun path file found => (settled_files.1 found).1
  documents := by
    intro path other file file' found found' same
    by_contra differ
    obtain ⟨chosen, free⟩ := settled_files.1 found
    exact free ⟨other, differ, file, file', chosen, (settled_files.1 found').1, .inl same⟩
  directories := by
    intro path isFile other isFile' below
    obtain ⟨file, found⟩ := mem_settled_files.1 isFile
    obtain ⟨file', found'⟩ := mem_settled_files.1 isFile'
    obtain ⟨chosen, free⟩ := settled_files.1 found
    exact free ⟨other, below.ne, file, file', chosen, (settled_files.1 found').1, .inr (.inl below)⟩
  conflicts := fun path => settled_conflicts
  reported := by
    intro conflict mem
    obtain ⟨path, -, rfl⟩ := mem_map.1 (mem_sortBy.1 mem)
    rfl
  sorted := by
    rw [settled_conflicts_map]
    exact sortBy_increasing reportedPaths_nodup

/-- Planning three commits of one project settles every path, and exchanging the two sides gives the
mirrored plan. -/
theorem plan_settles_every_path (base left right : Commit) (validBase : base.validate = .ok ())
    (validLeft : left.validate = .ok ()) (validRight : right.validate = .ok ())
    (sameLeft : base.project = left.project) (sameRight : base.project = right.project) :
    ∃ result, plan base left right = .ok result ∧ DecidesPaths base left right result ∧
      plan base right left = .ok result.mirror := by
  refine ⟨_, plan_eq_settled validBase validLeft validRight sameLeft sameRight, settled_decides, ?_⟩
  rw [plan_eq_settled validBase validRight validLeft sameRight sameLeft, settled_swap]

def oneFile (path : String) : Commit where
  version := 1
  project := plainUuid 1
  parents := []
  files := .ofList [(path, FileEntry.mk (plainUuid 2) (plainAddress 3))]
  authorKey := String.ofList (List.replicate 64 '0')
  authoredAtMs := 0
  message := ""
  recovery := none
  sameFileResolutions := []

/-- Both sides gave the document a new name: neither name is planned. -/
theorem two_renames_clash :
    ∃ result, plan (oneFile "a") (oneFile "b") (oneFile "c") = .ok result ∧
      result.conflicts.map FileConflict.path = ["b", "c"] ∧ "a" ∉ result.files ∧
      plan (oneFile "a") (oneFile "c") (oneFile "b") = .ok result.mirror := by
  have valid (path : String) (checked : (oneFile path).validate.toOption = some ()) :
      (oneFile path).validate = .ok () := toOption_eq_some.1 checked
  obtain ⟨result, planned, settled, mirrored⟩ := plan_settles_every_path (oneFile "a") (oneFile "b")
    (oneFile "c") (valid _ (by decide +kernel)) (valid _ (by decide +kernel)) (valid _ (by decide +kernel))
    rfl rfl
  have conflicts : ((plan (oneFile "a") (oneFile "b") (oneFile "c")).toOption.map fun result =>
      result.conflicts.map FileConflict.path) = some ["b", "c"] := by decide +kernel
  rw [planned] at conflicts
  refine ⟨result, planned, Option.some_inj.1 conflicts, fun isFile => ?_, mirrored⟩
  have absent : ChosenAt (oneFile "a") (oneFile "b") (oneFile "c") "a" none :=
    chosenFile_eq_some.1 (by decide +kernel)
  exact (settled.apart "a").2.1 ⟨isFile, absent⟩

end Settling

end Dynodoc.Repository
