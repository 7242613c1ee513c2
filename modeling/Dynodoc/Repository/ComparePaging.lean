import Dynodoc.Repository.Compare

/-! The pages of a comparison that a client reads by passing on each cursor: every difference is
listed once and in order, as long as the cursors are not too long to be accepted. -/
namespace Dynodoc.Repository
open Std (ExtTreeMap ExtTreeSet)
open Log (Uuid plainUuid utf8)
open Checkpoint (Address plainAddress)
open JsonText Loop List CompareCursor

variable {rest : List PathDiff} {path : String} {diff : PathDiff} {cursor : Option String}
  {c : Char} {n : Nat}

section Differences

variable (fromCommit toCommit : Commit) (includeUnchanged : Bool)

def diffAt (path : String) : Option PathDiff :=
  match fromCommit.files[path]?, toCommit.files[path]? with
  | none, none => none
  | none, some toFile => some ⟨path, .added, none, some toFile, false⟩
  | some fromFile, none => some ⟨path, .removed, some fromFile, none, false⟩
  | some fromFile, some toFile =>
    if fromFile = toFile then
      if includeUnchanged then some ⟨path, .unchanged, some fromFile, some toFile, false⟩ else none
    else some ⟨path, .modified, some fromFile, some toFile, fromFile.document ≠ toFile.document⟩

def comparedPaths : List String := (ExtTreeSet.ofList (fromCommit.files.keys ++ toCommit.files.keys)).toList

def differences : List PathDiff := (comparedPaths fromCommit toCommit).filterMap
  (diffAt fromCommit toCommit includeUnchanged)

variable {fromCommit toCommit includeUnchanged} (state : DiffTotals × List PathDiff)

theorem comparePath_diffs (path : String) :
    (comparePath fromCommit toCommit includeUnchanged state path).2 =
      state.2 ++ (diffAt fromCommit toCommit includeUnchanged path).toList := by
  unfold comparePath diffAt
  cases fromCommit.files[path]? with
  | none => cases toCommit.files[path]? <;> simp
  | some fromFile =>
    cases toCommit.files[path]? with
    | none => simp
    | some toFile => by_cases same : fromFile = toFile <;> cases includeUnchanged <;> simp [same]

def DiffTotals.counted (totals : DiffTotals) : Nat :=
  totals.added + totals.removed + totals.modified + totals.unchanged

theorem comparePath_totals (path : String) :
    (comparePath fromCommit toCommit includeUnchanged state path).1.counted ≤ state.1.counted + 1 := by
  unfold comparePath DiffTotals.counted
  cases fromCommit.files[path]? with
  | none => cases toCommit.files[path]? <;> dsimp only <;> omega
  | some fromFile =>
    cases toCommit.files[path]? with
    | none => dsimp only; omega
    | some toFile => by_cases same : fromFile = toFile <;> simp only [same, if_true, if_false] <;> omega

theorem foldl_comparePath (paths : List String) (state : DiffTotals × List PathDiff) :
    (paths.foldl (comparePath fromCommit toCommit includeUnchanged) state).2 =
      state.2 ++ paths.filterMap (diffAt fromCommit toCommit includeUnchanged) ∧
    (paths.foldl (comparePath fromCommit toCommit includeUnchanged) state).1.counted ≤
      state.1.counted + paths.length := by
  induction paths generalizing state with
  | nil => simp
  | cons path paths ih =>
    obtain ⟨diffs, counted⟩ := ih (comparePath fromCommit toCommit includeUnchanged state path)
    have step : (comparePath fromCommit toCommit includeUnchanged state path).1.counted ≤ _ :=
      comparePath_totals state path
    rw [foldl_cons]
    refine ⟨?_, ?_⟩
    · rw [diffs, comparePath_diffs, append_assoc, filterMap_cons]
      cases diffAt fromCommit toCommit includeUnchanged path <;> rfl
    · rw [length_cons]
      omega

theorem of_diffAt (found : diffAt fromCommit toCommit includeUnchanged path = some diff) :
    diff.path = path ∧ diff.fromFile = fromCommit.files[path]? ∧ diff.toFile = toCommit.files[path]? := by
  unfold diffAt at found
  split at found
  · contradiction
  · cases found
    simp [*]
  · cases found
    simp [*]
  · split at found
    · split at found
      · cases found
        simp [*]
      · contradiction
    · cases found
      simp [*]

/-- The paths that are listed: those at which the commits differ, and the others on request. -/
theorem diffAt_isSome : (diffAt fromCommit toCommit includeUnchanged path).isSome ↔
    fromCommit.files[path]? ≠ toCommit.files[path]? ∨
      includeUnchanged = true ∧ path ∈ fromCommit.files := by
  rw [ExtTreeMap.mem_iff_isSome_getElem?]
  unfold diffAt
  split
  · simp [*]
  · simp [*]
  · simp [*]
  · split
    · split <;> simp_all
    · simp_all

theorem mem_comparedPaths : path ∈ comparedPaths fromCommit toCommit ↔
    path ∈ fromCommit.files ∨ path ∈ toCommit.files := by
  simp [comparedPaths]

theorem compared_of_diffAt (found : diffAt fromCommit toCommit includeUnchanged path = some diff) :
    path ∈ comparedPaths fromCommit toCommit := by
  rw [mem_comparedPaths, ExtTreeMap.mem_iff_isSome_getElem?, ExtTreeMap.mem_iff_isSome_getElem?]
  unfold diffAt at found
  split at found <;> simp_all

theorem mem_differences : diff ∈ differences fromCommit toCommit includeUnchanged ↔
    diffAt fromCommit toCommit includeUnchanged diff.path = some diff := by
  rw [differences, mem_filterMap]
  constructor
  · rintro ⟨path, -, found⟩
    rwa [(of_diffAt found).1]
  · exact fun found => ⟨diff.path, compared_of_diffAt found, found⟩

theorem mem_differences_path : path ∈ (differences fromCommit toCommit includeUnchanged).map PathDiff.path ↔
    fromCommit.files[path]? ≠ toCommit.files[path]? ∨
      includeUnchanged = true ∧ path ∈ fromCommit.files := by
  rw [← diffAt_isSome, Option.isSome_iff_exists, mem_map]
  constructor
  · rintro ⟨diff, mem, rfl⟩
    exact ⟨diff, mem_differences.1 mem⟩
  · rintro ⟨diff, found⟩
    have named := (of_diffAt found).1
    exact ⟨diff, mem_differences.2 (named.symm ▸ found), named⟩

theorem differences_sorted : (differences fromCommit toCommit includeUnchanged).Pairwise fun diff other =>
    compare diff.path other.path = .lt := by
  rw [differences, pairwise_filterMap]
  refine ExtTreeSet.ordered_toList.imp fun lt diff found other found' => ?_
  rwa [(of_diffAt found).1, (of_diffAt found').1]

end Differences

section Page

variable {limit : Nat} {page : List PathDiff}

theorem itemBytes_eq (diff : PathDiff) : itemBytes diff = size diff.text + 2 := by
  rw [itemBytes, length_utf8_ofList]

/-- When no page can run out of bytes, it ends at the limit. -/
theorem fillPage_eq {longest bytes : Nat} (small : ∀ diff ∈ rest, itemBytes diff ≤ longest)
    (room : bytes + (limit - page.length) * longest ≤ maxDiffResponseBytes) :
    fillPage limit rest page bytes =
      (page ++ rest.take (limit - page.length), decide (limit - page.length < rest.length)) := by
  induction rest generalizing page bytes with
  | nil => simp [fillPage]
  | cons diff rest ih =>
    unfold fillPage
    by_cases full : page.length ≥ limit
    · rw [if_pos full, Nat.sub_eq_zero_of_le full]
      simp
    · have item := small diff (by simp)
      obtain ⟨left, isLeft⟩ : ∃ left, limit - page.length = left + 1 := ⟨limit - page.length - 1, by omega⟩
      have after : limit - (page ++ [diff]).length = left := by
        rw [length_append, length_singleton]
        omega
      rw [isLeft, Nat.succ_mul] at room
      rw [if_neg full, if_neg (by omega), ih (fun other mem => small other (by simp [mem])), after, isLeft]
      · simp
      rw [after]
      omega

def Fits (diff : PathDiff) : Prop := size (string diff.path.toList) ≤ 2050

theorem itemBytes_le (fits : Fits diff) : itemBytes diff ≤ 2371 := by
  have := size_pathDiff diff
  unfold Fits at fits
  rw [itemBytes_eq]
  omega

end Page

section Serving

variable {env : Externals} {parse : List UInt8 → Option CompareCursor} {source target : SignedCommit}
  {fromAddr toAddr : Address} {limit : Option Nat} {includeUnchanged : Bool}

/-- Two signed commits of one project. -/
structure Comparable (env : Externals) (source target : SignedCommit) (fromAddr toAddr : Address) :
    Prop where
  verified : source.verify env = .ok fromAddr
  verified' : target.verify env = .ok toAddr
  project : source.commit.project = target.commit.project

theorem validate_of_verify {signed : SignedCommit} {address : Address}
    (verified : signed.verify env = .ok address) :
    signed.commit.validate = .ok () := by
  obtain ⟨_, addressed, -⟩ := bind_eq_ok.1 verified
  obtain ⟨_, written, -⟩ := bind_eq_ok.1 addressed
  obtain ⟨⟨⟩, valid, -⟩ := bind_eq_ok.1 written
  exact valid

theorem validPath_of_mem {commit : Commit} (valid : commit.validate = .ok ()) (mem : path ∈ commit.files) :
    validPath path := by
  obtain ⟨documents, checked, -⟩ := filesChecked_of_validate valid
  obtain ⟨file, found⟩ := Option.isSome_iff_exists.1 (ExtTreeMap.mem_iff_isSome_getElem?.1 mem)
  exact checked.paths (path, file) (ExtTreeMap.mem_toList_iff_getElem?_eq_some.2 found)

theorem fits_of_validPath (valid : validPath diff.path) : Fits diff := by
  simp only [validPath, Bool.and_eq_true, decide_eq_true_eq, Bool.not_eq_true', any_eq_false] at valid
  obtain ⟨⟨⟨⟨-, few⟩, -⟩, visible⟩, -⟩ := valid
  have sized := @size_string_le diff.path.toList fun c mem => by
    have shown := visible c mem
    simp only [Text.isControl, Bool.or_eq_true, decide_eq_true_eq, not_or] at shown
    omega
  rw [← size_ofList diff.path.toList, String.ofList_toList] at sized
  unfold Fits
  omega

theorem fits_of_mem (comparable : Comparable env source target fromAddr toAddr)
    (mem : diff ∈ differences source.commit target.commit includeUnchanged) : Fits diff := by
  refine fits_of_validPath ?_
  rcases mem_comparedPaths.1 (compared_of_diffAt (mem_differences.1 mem)) with inside | inside
  · exact validPath_of_mem (validate_of_verify comparable.verified) inside
  · exact validPath_of_mem (validate_of_verify comparable.verified') inside

def cursorAt (source : SignedCommit) (fromAddr toAddr : Address) (path : String) : CompareCursor :=
  ⟨cursorVersion, source.commit.project, fromAddr, toAddr, path⟩

/-- What is left to list for a cursor that is accepted. -/
inductive Resumes (parse : List UInt8 → Option CompareCursor) (source target : SignedCommit)
    (fromAddr toAddr : Address) (includeUnchanged : Bool) : Option String → List PathDiff → Prop
  | start : Resumes parse source target fromAddr toAddr includeUnchanged none
      (differences source.commit target.commit includeUnchanged)
  | after {raw : String} {cursor : CompareCursor}
      (accepted : decode parse raw source.commit.project fromAddr toAddr = .ok cursor) :
      Resumes parse source target fromAddr toAddr includeUnchanged (some raw)
        ((differences source.commit target.commit includeUnchanged).filter fun diff =>
          compare cursor.last diff.path = .lt)

def pageLimit (limit : Option Nat) : Nat := max 1 (min (limit.getD defaultDiffLimit) maxDiffLimit)

theorem pageLimit_pos (limit : Option Nat) : 0 < pageLimit limit := by
  unfold pageLimit
  omega

theorem pageLimit_le (limit : Option Nat) : pageLimit limit ≤ 100 := by
  unfold pageLimit maxDiffLimit
  omega

theorem length_comparedPaths (comparable : Comparable env source target fromAddr toAddr) :
    (comparedPaths source.commit target.commit).length ≤ 8192 := by
  obtain ⟨-, -, few⟩ := filesChecked_of_validate (validate_of_verify comparable.verified)
  obtain ⟨-, -, few'⟩ := filesChecked_of_validate (validate_of_verify comparable.verified')
  have nodup : (comparedPaths source.commit target.commit).Nodup :=
    ExtTreeSet.distinct_toList.imp fun apart same => apart (Std.compare_eq_iff_eq.2 same)
  have within : comparedPaths source.commit target.commit ⊆
      source.commit.files.keys ++ target.commit.files.keys := by
    intro path mem
    simpa [mem_comparedPaths] using mem
  have fewer := nodup.length_le_of_subset within
  rw [length_append, ExtTreeMap.length_keys, ExtTreeMap.length_keys] at fewer
  unfold maxFiles at few few'
  omega

def comparison (fromCommit toCommit : Commit) (includeUnchanged : Bool) : DiffTotals × List PathDiff :=
  (comparedPaths fromCommit toCommit).foldl (comparePath fromCommit toCommit includeUnchanged)
    (⟨0, 0, 0, 0, 0⟩, [])

theorem comparison_diffs (fromCommit toCommit : Commit) (includeUnchanged : Bool) :
    (comparison fromCommit toCommit includeUnchanged).2 =
      differences fromCommit toCommit includeUnchanged :=
  (foldl_comparePath _ _).1

def totalsOf (fromCommit toCommit : Commit) (includeUnchanged : Bool) : DiffTotals :=
  let totals := (comparison fromCommit toCommit includeUnchanged).1
  { totals with totalChanges := totals.added + totals.removed + totals.modified }

theorem size_totalsOf (comparable : Comparable env source target fromAddr toAddr)
    (includeUnchanged : Bool) :
    size (totalsOf source.commit target.commit includeUnchanged).text ≤ 83 := by
  have few := length_comparedPaths comparable
  have counted : (comparison source.commit target.commit includeUnchanged).1.counted ≤ _ :=
    (foldl_comparePath _ _).2
  simp only [DiffTotals.counted] at counted
  apply size_totals <;> simp only [totalsOf] <;> omega

/-- A page holds the next differences up to the limit, and its cursor says which was the last. -/
def pageOf (project : Uuid) (fromAddr toAddr : Address) (totals : DiffTotals) (limit : Nat)
    (rest : List PathDiff) : ProjectDiffReport where
  project := project
  fromCommit := fromAddr
  toCommit := toAddr
  totals := totals
  changes := rest.take limit
  nextCursor :=
    if limit < rest.length then
      (rest.take limit).getLast?.map fun diff =>
        encode ⟨cursorVersion, project, fromAddr, toAddr, diff.path⟩
    else none
  more := limit < rest.length

theorem pageReport_eq {project : Uuid} {totals : DiffTotals} (fits : ∀ diff ∈ rest, Fits diff) :
    pageReport project fromAddr toAddr totals (pageLimit limit) rest =
      pageOf project fromAddr toAddr totals (pageLimit limit) rest := by
  have filled : fillPage (pageLimit limit) rest [] 256 =
      (rest.take (pageLimit limit), decide (pageLimit limit < rest.length)) := by
    refine fillPage_eq (fun diff mem => itemBytes_le (fits diff mem)) ?_
    have := pageLimit_le limit
    unfold maxDiffResponseBytes
    omega
  have more : (decide (pageLimit limit < rest.length) ||
      decide (rest.length > (rest.take (pageLimit limit)).length)) =
        decide (pageLimit limit < rest.length) := by
    by_cases left : pageLimit limit < rest.length
    · simp
    · simp
  unfold pageReport pageOf
  rw [filled]
  dsimp only
  rw [more]
  simp

theorem compareManifests_page (comparable : Comparable env source target fromAddr toAddr)
    (resumes : Resumes parse source target fromAddr toAddr includeUnchanged cursor rest)
    (fits : ∀ diff ∈ rest, Fits diff) :
    compareManifests env parse source target ⟨limit, cursor, includeUnchanged⟩ =
      .ok (pageOf source.commit.project fromAddr toAddr
        (totalsOf source.commit target.commit includeUnchanged) (pageLimit limit) rest) := by
  have diffs := comparison_diffs source.commit target.commit includeUnchanged
  rw [← pageReport_eq fits]
  unfold compareManifests
  rw [comparable.verified, comparable.verified']
  simp only [bind, Except.bind]
  rw [validate_of_verify comparable.verified, validate_of_verify comparable.verified']
  rw [if_neg (not_not.2 comparable.project)]
  cases resumes with
  | start =>
    rw [← diffs]
    rfl
  | after accepted =>
    dsimp only
    rw [accepted, ← diffs]
    rfl

/-- A page stays within the budget, its cursor included. -/
theorem size_pageOf (comparable : Comparable env source target fromAddr toAddr)
    (fits : ∀ diff ∈ rest, Fits diff) : size (pageOf source.commit.project fromAddr toAddr
      (totalsOf source.commit target.commit includeUnchanged) (pageLimit limit) rest).text ≤
      maxDiffResponseBytes := by
  have totals := size_totalsOf comparable includeUnchanged
  generalize totalsOf source.commit target.commit includeUnchanged = sums at totals
  have few : (rest.take (pageLimit limit)).length ≤ 100 := by
    have := pageLimit_le limit
    rw [length_take]
    omega
  have changes : ∀ diff ∈ rest.take (pageLimit limit), size diff.text ≤ 2369 := by
    intro diff mem
    have short : Fits diff := fits diff (mem_of_mem_take mem)
    have := size_pathDiff diff
    unfold Fits at short
    omega
  have next : ∀ text,
      (pageOf source.commit.project fromAddr toAddr sums (pageLimit limit) rest).nextCursor =
      some text → size (string text.toList) ≤ 4510 := by
    intro text given
    unfold pageOf at given
    split at given
    · obtain ⟨diff, last, rfl⟩ := Option.map_eq_some_iff.1 given
      have short : Fits diff := fits diff (mem_of_mem_take (mem_of_getLast? last))
      unfold Fits at short
      rw [size_encoded, size_cursor]
      omega
    · cases given
  have sized : size (pageOf source.commit.project fromAddr toAddr sums (pageLimit limit) rest).text ≤
      400 + (rest.take (pageLimit limit)).length * (2369 + 1) + 4510 :=
    size_report 2369 4510 totals changes next
  refine sized.trans ?_
  unfold maxDiffResponseBytes
  omega

/-- The reports that a client gets by passing on each cursor, to one that says it is the last. -/
inductive ComparePages (env : Externals) (parse : List UInt8 → Option CompareCursor)
    (source target : SignedCommit)
    (limit : Option Nat) (includeUnchanged : Bool) : Option String → List ProjectDiffReport → Prop
  | last {cursor : Option String} {report : ProjectDiffReport}
      (served : compareManifests env parse source target ⟨limit, cursor, includeUnchanged⟩ = .ok report)
      (done : report.more = false) :
      ComparePages env parse source target limit includeUnchanged cursor [report]
  | next {cursor : Option String} {report : ProjectDiffReport} {following : String}
      {reports : List ProjectDiffReport}
      (served : compareManifests env parse source target ⟨limit, cursor, includeUnchanged⟩ = .ok report)
      (more : report.more = true) (passedOn : report.nextCursor = some following)
      (later : ComparePages env parse source target limit includeUnchanged (some following) reports) :
      ComparePages env parse source target limit includeUnchanged cursor (report :: reports)

variable {done : List PathDiff}

theorem filter_after
    (sorted : (done ++ diff :: rest).Pairwise fun diff other => compare diff.path other.path = .lt) :
    ((done ++ diff :: rest).filter fun other => compare diff.path other.path = .lt) = rest := by
  obtain ⟨-, sortedRest, between⟩ := pairwise_append.1 sorted
  have before : (done.filter fun other => compare diff.path other.path = .lt) = [] := by
    rw [filter_eq_nil_iff]
    intro other mem later
    have earlier := between other mem diff (by simp)
    have later : compare diff.path other.path = .lt := by simpa using later
    exact absurd (Std.TransCmp.lt_trans earlier later) (by simp)
  have after : (rest.filter fun other => compare diff.path other.path = .lt) = rest := by
    rw [filter_eq_self]
    intro other mem
    simpa using (pairwise_cons.1 sortedRest).1 other mem
  rw [filter_append, before, filter_cons, after]
  simp

/-- Every page but the last ends at a path that fits into a cursor. -/
def EndsShort (limit : Nat) (rest : List PathDiff) : Prop :=
  ∀ i diff, (i + 1) % limit = 0 → i + 1 < rest.length → rest[i]? = some diff →
    size (string diff.path.toList) ≤ 820

/-- The pages after the first are those of what is left. -/
theorem endsShort_iff {limit : Nat} {front : List PathDiff} (full : front.length + 1 = limit)
    (left : rest ≠ []) :
    EndsShort limit (front ++ diff :: rest) ↔
      size (string diff.path.toList) ≤ 820 ∧ EndsShort limit rest := by
  have length : (front ++ diff :: rest).length = limit + rest.length := by
    rw [length_append, length_cons]
    omega
  have after (i : Nat) : (front ++ diff :: rest)[limit + i]? = rest[i]? := by
    rw [getElem?_append_right (by omega), show limit + i - front.length = i + 1 by omega,
      getElem?_cons_succ]
  constructor
  · intro short
    constructor
    · refine short front.length diff (by rw [full, Nat.mod_self]) ?_ (by simp)
      have := length_pos_iff.2 left
      omega
    · intro i other ends inside found
      refine short (limit + i) other ?_ (by omega) (by rw [after, found])
      rwa [Nat.add_assoc, Nat.add_mod_left]
  · rintro ⟨first, later⟩ i other ends inside found
    by_cases here : i < limit
    · have last : i = front.length := by
        have := Nat.le_of_dvd (by omega) (Nat.dvd_of_mod_eq_zero ends)
        omega
      subst last
      simp only [getElem?_append_right (Nat.le_refl _), Nat.sub_self, getElem?_cons_zero,
        Option.some.injEq] at found
      rwa [← found]
    · obtain ⟨j, rfl⟩ : ∃ j, i = limit + j := ⟨i - limit, by omega⟩
      refine later j other ?_ (by omega) (by rw [← after, found])
      rwa [Nat.add_assoc, Nat.add_mod_left] at ends

theorem endsShort_of_short {limit : Nat} (few : rest.length ≤ limit) : EndsShort limit rest := by
  intro i diff ends inside
  have := Nat.le_of_dvd (by omega) (Nat.dvd_of_mod_eq_zero ends)
  omega

/-- A page that is not the last one: what it lists last, and what is left. -/
theorem take_split {limit : Nat} (positive : 0 < limit) (left : limit < rest.length) :
    ∃ front diff, rest = front ++ diff :: rest.drop limit ∧ rest.take limit = front ++ [diff] ∧
      front.length + 1 = limit ∧ rest.drop limit ≠ [] := by
  obtain ⟨front, diff, taken⟩ : ∃ front diff, rest.take limit = front ++ [diff] := by
    refine (eq_nil_or_concat' (rest.take limit)).resolve_left ?_
    rw [take_eq_nil_iff, not_or]
    exact ⟨by omega, ne_nil_of_length_pos (by omega)⟩
  have joined := take_append_drop limit rest
  rw [taken, append_assoc, singleton_append] at joined
  have length := congrArg List.length taken
  rw [length_take, length_append, length_singleton] at length
  refine ⟨front, diff, joined.symm, taken, by omega, ?_⟩
  rw [ne_eq, drop_eq_nil_iff]
  omega

theorem compareManifests_refused {cursor : String} {e : Error}
    (comparable : Comparable env source target fromAddr toAddr)
    (refused : decode parse cursor source.commit.project fromAddr toAddr = .error e) :
    compareManifests env parse source target ⟨limit, some cursor, includeUnchanged⟩ = .error e := by
  unfold compareManifests
  rw [comparable.verified, comparable.verified']
  simp only [bind, Except.bind]
  rw [validate_of_verify comparable.verified, validate_of_verify comparable.verified']
  rw [if_neg (not_not.2 comparable.project), refused]

/-- A reader that reads the cursors of a comparison back. -/
def Reads (parse : List UInt8 → Option CompareCursor) (source target : SignedCommit)
    (fromAddr toAddr : Address) (includeUnchanged : Bool) : Prop :=
  ∀ diff ∈ differences source.commit target.commit includeUnchanged,
    parse (cursorAt source fromAddr toAddr diff.path).bytes =
    some (cursorAt source fromAddr toAddr diff.path)

/-- An accepted cursor resumes after the difference it names. -/
theorem resumes_after {front : List PathDiff}
    (reads : Reads parse source target fromAddr toAddr includeUnchanged)
    (all : differences source.commit target.commit includeUnchanged = front ++ diff :: rest)
    (short : size (string diff.path.toList) ≤ 820) :
    Resumes parse source target fromAddr toAddr includeUnchanged
      (some (cursorAt source fromAddr toAddr diff.path).encode) rest := by
  have accepted : decode parse (cursorAt source fromAddr toAddr diff.path).encode
      source.commit.project fromAddr toAddr = _ :=
    decode_encode rfl fun _ => reads diff (by rw [all]; simp)
  rw [if_neg (by rw [cursorAt, size_cursor]; omega)] at accepted
  have after := filter_after (all ▸ differences_sorted)
  rw [← all] at after
  rw [← after]
  exact .after accepted

theorem pages_from (comparable : Comparable env source target fromAddr toAddr)
    (reads : Reads parse source target fromAddr toAddr includeUnchanged)
    (all : differences source.commit target.commit includeUnchanged = done ++ rest)
    (short : EndsShort (pageLimit limit) rest)
    (resumes : Resumes parse source target fromAddr toAddr includeUnchanged cursor rest) :
    ∃ reports, ComparePages env parse source target limit includeUnchanged cursor reports ∧
      reports.flatMap ProjectDiffReport.changes = rest ∧
      ∀ report ∈ reports, size report.text ≤ maxDiffResponseBytes := by
  -- Each page takes at least one difference, so what is left gets shorter.
  induction remaining : rest.length using Nat.strong_induction_on generalizing cursor done rest with
  | _ remaining ih =>
  have fits : ∀ diff ∈ rest, Fits diff := fun diff mem =>
    fits_of_mem comparable (all ▸ mem_append_right done mem)
  have served : compareManifests env parse source target ⟨limit, cursor, includeUnchanged⟩ = _ :=
    compareManifests_page comparable resumes fits
  have sized : size (pageOf source.commit.project fromAddr toAddr
      (totalsOf source.commit target.commit includeUnchanged) (pageLimit limit) rest).text ≤ _ :=
    size_pageOf comparable fits
  have positive := pageLimit_pos limit
  by_cases left : pageLimit limit < rest.length
  · obtain ⟨front, diff, parts, taken, full, remains⟩ := take_split positive left
    rw [parts, endsShort_iff full remains] at short
    have split : differences source.commit target.commit includeUnchanged =
        (done ++ front) ++ diff :: rest.drop (pageLimit limit) := by
      rw [all, append_assoc, ← parts]
    obtain ⟨reports, pages, whole, within⟩ := ih _ (by rw [length_drop]; omega)
      (show _ = (done ++ front ++ [diff]) ++ rest.drop (pageLimit limit) by rw [split]; simp)
      short.2 (resumes_after reads split short.1) rfl
    refine ⟨_, .next served (by simpa [pageOf] using left) ?_ pages, ?_, ?_⟩
    · simp [pageOf, left, taken, cursorAt]
    · rw [flatMap_cons, whole]
      exact take_append_drop _ _
    · intro report mem
      rcases mem_cons.1 mem with rfl | mem
      · exact sized
      · exact within report mem
  · refine ⟨_, .last served (by simpa [pageOf] using left), ?_, by simpa using sized⟩
    simpa [pageOf] using left

theorem short_of_served {report : ProjectDiffReport}
    (comparable : Comparable env source target fromAddr toAddr)
    (served : compareManifests env parse source target
      ⟨limit, some (cursorAt source fromAddr toAddr path).encode, includeUnchanged⟩ = .ok report) :
    size (string path.toList) ≤ 820 := by
  by_contra long
  have sized : 1024 < size (cursorAt source fromAddr toAddr path).text := by
    rw [cursorAt, size_cursor]
    omega
  have refused : decode parse (cursorAt source fromAddr toAddr path).encode
      source.commit.project fromAddr toAddr = _ := decode_encode rfl fun short => absurd short (by omega)
  rw [if_pos sized] at refused
  cases (compareManifests_refused comparable refused).symm.trans served

theorem ComparePages.served {reports : List ProjectDiffReport}
    (pages : ComparePages env parse source target limit includeUnchanged cursor reports) :
    ∃ report, compareManifests env parse source target ⟨limit, cursor, includeUnchanged⟩ = .ok report := by
  cases pages with
  | last served => exact ⟨_, served⟩
  | next served => exact ⟨_, served⟩

/-- A client that gets to the last page had only cursors that were accepted. -/
theorem endsShort_of_pages {reports : List ProjectDiffReport}
    (comparable : Comparable env source target fromAddr toAddr)
    (reads : Reads parse source target fromAddr toAddr includeUnchanged)
    (pages : ComparePages env parse source target limit includeUnchanged cursor reports)
    (all : differences source.commit target.commit includeUnchanged = done ++ rest)
    (resumes : Resumes parse source target fromAddr toAddr includeUnchanged cursor rest) :
    EndsShort (pageLimit limit) rest := by
  have positive := pageLimit_pos limit
  induction pages generalizing done rest with
  | last served last =>
    cases (compareManifests_page comparable resumes fun diff mem =>
      fits_of_mem comparable (all ▸ mem_append_right done mem)).symm.trans served
    exact endsShort_of_short (Nat.le_of_not_lt (of_decide_eq_false last))
  | next served more passedOn later ih =>
    cases (compareManifests_page comparable resumes fun diff mem =>
      fits_of_mem comparable (all ▸ mem_append_right done mem)).symm.trans served
    have left : pageLimit limit < rest.length := of_decide_eq_true more
    obtain ⟨front, diff, parts, taken, full, remains⟩ := take_split positive left
    have split : differences source.commit target.commit includeUnchanged =
        (done ++ front) ++ diff :: rest.drop (pageLimit limit) := by
      rw [all, append_assoc, ← parts]
    obtain rfl : (cursorAt source fromAddr toAddr diff.path).encode = _ := by
      simpa [pageOf, left, taken, cursorAt] using passedOn
    have short : size (string diff.path.toList) ≤ 820 := by
      obtain ⟨report, served'⟩ := later.served
      exact short_of_served comparable served'
    rw [parts, endsShort_iff full remains]
    exact ⟨short, ih (show _ = (done ++ front ++ [diff]) ++ rest.drop (pageLimit limit) by
      rw [split]; simp) (resumes_after reads split short)⟩

/-- Following the cursors of a comparison lists every difference once and in the order of the paths,
within the budget, if and only if every page but the last ends at a path whose JSON text has at most
820 bytes. Pages are full, so they end at every multiple of the limit. -/
theorem pages_list_every_difference (env : Externals) (parse : List UInt8 → Option CompareCursor)
    (source target : SignedCommit) (fromAddr toAddr : Address) (limit : Option Nat)
    (includeUnchanged : Bool)
    (verified : source.verify env = .ok fromAddr) (verified' : target.verify env = .ok toAddr)
    (project : source.commit.project = target.commit.project)
    (reads : ∀ path, path ∈ source.commit.files ∨ path ∈ target.commit.files →
      parse (bytes ⟨cursorVersion, source.commit.project, fromAddr, toAddr, path⟩) =
        some ⟨cursorVersion, source.commit.project, fromAddr, toAddr, path⟩) :
    (∃ reports, ComparePages env parse source target limit includeUnchanged none reports ∧
      (∀ report ∈ reports, size report.text ≤ maxDiffResponseBytes) ∧
      (reports.flatMap ProjectDiffReport.changes).Pairwise
        (fun diff other => compare diff.path other.path = .lt) ∧
      (∀ diff ∈ reports.flatMap ProjectDiffReport.changes,
        diffAt source.commit target.commit includeUnchanged diff.path = some diff) ∧
      ∀ path, path ∈ (reports.flatMap ProjectDiffReport.changes).map PathDiff.path ↔
        source.commit.files[path]? ≠ target.commit.files[path]? ∨
          includeUnchanged = true ∧ path ∈ source.commit.files) ↔
    EndsShort (pageLimit limit) (differences source.commit target.commit includeUnchanged) := by
  have comparable : Comparable env source target fromAddr toAddr := ⟨verified, verified', project⟩
  have reads : Reads parse source target fromAddr toAddr includeUnchanged := fun diff mem =>
    reads diff.path (mem_comparedPaths.1 (compared_of_diffAt (mem_differences.1 mem)))
  constructor
  · rintro ⟨reports, pages, -⟩
    exact endsShort_of_pages comparable reads pages (nil_append _).symm .start
  · intro short
    obtain ⟨reports, pages, whole, within⟩ := pages_from comparable reads (nil_append _).symm short .start
    refine ⟨reports, pages, within, ?_, ?_, ?_⟩
    · rw [whole]
      exact differences_sorted
    · rw [whole]
      exact fun diff mem => mem_differences.1 mem
    · intro path
      rw [whole]
      exact mem_differences_path

def sameHash : Address := plainAddress 7

def sameFile : FileEntry := ⟨plainUuid 2, plainAddress 3⟩

def signedFile (path : String) : SignedCommit where
  commit := {
    version := 1
    project := plainUuid 1
    parents := []
    files := .ofList [(path, sameFile)]
    authorKey := String.ofList (List.replicate 64 '0')
    authoredAtMs := 0
    message := ""
    recovery := none
    sameFileResolutions := [] }
  signature := String.ofList (List.replicate 128 '0')

def letters (c : Char) (n : Nat) : String := String.ofList (List.replicate n c)

theorem validPath_letters (letter : c = 'a' ∨ c = 'b') (some : 0 < n) (few : n ≤ 1024) :
    validPath (letters c n) = true ∧ directories (letters c n) = [] := by
  have facts : c.utf8Size = 1 ∧ (c = '\\' || c = ':') = false ∧ Text.isControl c = false ∧ c ≠ '/' ∧
    c ≠ '.' := by
    rcases letter with rfl | rfl <;> decide
  obtain ⟨one, mark, control, slash, dot⟩ := facts
  have narrow : (letters c n).utf8ByteSize = n := by
    rw [letters, size_ofList, size_of_narrow fun d mem => eq_of_mem_replicate mem ▸ one,
      length_replicate]
  have filled : letters c n ≠ "" := by
    intro empty
    rw [empty] at narrow
    exact absurd some (by rw [← narrow]; decide)
  have apart (d : Char) (other : c ≠ d) : d ∉ replicate n c := fun mem =>
    other (eq_of_mem_replicate mem).symm
  constructor
  · have marks : (letters c n).toList.any (fun c => c = '\\' || c = ':') = false := by
      rw [letters, String.toList_ofList, any_eq_false]
      exact fun d mem => by rw [eq_of_mem_replicate mem, mark]; decide
    have controls : (letters c n).toList.any Text.isControl = false := by
      rw [letters, String.toList_ofList, any_eq_false]
      exact fun d mem => by rw [eq_of_mem_replicate mem, control]; decide
    have part : ((letters c n).toList.splitOn '/') = [replicate n c] := by
      rw [letters, String.toList_ofList, splitOn_eq_singleton (apart _ slash)]
    have notDots : replicate n c ≠ [] ∧ replicate n c ≠ ['.'] ∧ replicate n c ≠ ['.', '.'] := by
      refine ⟨fun empty => ?_, fun isDot => apart _ dot (by rw [isDot]; simp),
        fun isDots => apart _ dot (by rw [isDots]; simp)⟩
      rw [replicate_eq_nil_iff] at empty
      omega
    unfold validPath
    dsimp only
    rw [marks, controls, part, narrow]
    simp [filled, few, notDots]
  · have noSlash : ∀ i : Nat, (letters c n).toList[i]? ≠ Option.some '/' := by
      intro i found
      rw [letters, String.toList_ofList] at found
      exact apart _ slash (mem_of_getElem? found)
    simp [directories, noSlash]

theorem verify_signedFile (valid : validPath path = true) (flat : directories path = []) :
    (signedFile path).verify lenient = .ok sameHash := by
  have key : unhex (signedFile path).commit.authorKey 32 = .ok (replicate 32 0) :=
    toOption_eq_some.1 (show (unhex (String.ofList (replicate 64 '0')) 32).toOption = _ by decide +kernel)
  have signature : unhex (signedFile path).signature 64 = .ok (replicate 64 0) :=
    toOption_eq_some.1 (show (unhex (String.ofList (replicate 128 '0')) 64).toOption = _ by decide +kernel)
  have listed : (signedFile path).commit.files.toList = [(path, sameFile)] := rfl
  have few : ¬ maxFiles < (signedFile path).commit.files.size := by
    rw [show (signedFile path).commit.files.size = 1 from rfl]
    decide
  have shape : (signedFile path).commit.validShape = true := rfl
  have checked : (signedFile path).commit.checkFile [] (path, sameFile) = .ok [sameFile.document] := by
    unfold Commit.checkFile
    rw [if_neg (by simp [valid, sameFile, plainUuid, Authority.isNil]), if_neg (by simp [flat])]
  have validated : (signedFile path).commit.validate = .ok () := by
    rw [Commit.validate, if_neg (not_not.2 shape), key]
    rw [if_neg few, listed, foldlM_cons, checked]
    rfl
  have text : (lenient.commitText (signedFile path).commit) = [] := rfl
  rw [SignedCommit.verify, Commit.address, Commit.bytes, validated, text, key, signature]
  rfl

theorem size_letters (letter : c = 'a' ∨ c = 'b') : size (string (letters c n).toList) = n + 2 := by
  have mark : IsMark c := by
    rcases letter with rfl | rfl <;> exact ⟨by decide, by decide⟩
  rw [letters, String.toList_ofList, size_string_marks fun d mem => eq_of_mem_replicate mem ▸ mark,
    length_replicate]

theorem files_signedFile {other : String} :
    other ∈ (signedFile path).commit.files ↔ other = path := by
  simp only [signedFile, ExtTreeMap.mem_ofList, map_cons, map_nil, contains_iff_mem,
    mem_singleton]

theorem files_differ {path' other : String} (differ : path ≠ path') :
    (signedFile path).commit.files[other]? ≠ (signedFile path').commit.files[other]? ↔
      other = path ∨ other = path' := by
  constructor
  · intro apart
    by_contra neither
    rw [not_or, ← files_signedFile, ← files_signedFile] at neither
    rw [OrderedMap.getElem?_eq_none_iff.2 neither.1, OrderedMap.getElem?_eq_none_iff.2 neither.2] at apart
    exact apart rfl
  · rintro isPath same
    have both : other ∈ (signedFile path).commit.files ↔ other ∈ (signedFile path').commit.files := by
      rw [ExtTreeMap.mem_iff_isSome_getElem?, ExtTreeMap.mem_iff_isSome_getElem?, same]
    rw [files_signedFile, files_signedFile] at both
    rcases isPath with rfl | rfl
    · exact differ (both.1 rfl)
    · exact differ (both.2 rfl).symm

/-- Two commits with one file each, at different paths: both files are differences. -/
theorem differences_signedFile {path' : String} (differ : path ≠ path') :
    1 < (differences (signedFile path).commit (signedFile path').commit false).length ∧
      ∀ diff ∈ differences (signedFile path).commit (signedFile path').commit false,
        diff.path = path ∨ diff.path = path' := by
  have listed (other : String) : other ∈ (differences (signedFile path).commit (signedFile path').commit
      false).map PathDiff.path ↔ other = path ∨ other = path' := by
    rw [mem_differences_path, files_differ differ]
    simp
  constructor
  · have distinct : [path, path'].Nodup := by simpa using differ
    have two := distinct.length_le_of_subset fun other mem => (listed other).2 (by simpa using mem)
    rwa [length_map] at two
  · exact fun diff mem => (listed diff.path).1 (mem_map_of_mem mem)

/-- One commit has the first path, the other the second, and neither path fits into a cursor; so
the second page is refused, whatever reads the cursor. -/
theorem long_paths_stop_the_comparison : ∃ (source target : SignedCommit) (fromAddr toAddr : Address),
    source.verify lenient = .ok fromAddr ∧ target.verify lenient = .ok toAddr ∧
      source.commit.project = target.commit.project ∧
      ∀ parse, ¬ ∃ reports, ComparePages lenient parse source target (some 1) false none reports := by
  obtain ⟨n, isLong⟩ : ∃ n, n = 819 := ⟨_, rfl⟩
  obtain ⟨valid, flat⟩ := validPath_letters (.inl rfl) (show 0 < n by omega) (by omega)
  obtain ⟨valid', flat'⟩ := validPath_letters (.inr rfl) (show 0 < n by omega) (by omega)
  have comparable : Comparable lenient (signedFile (letters 'a' n)) (signedFile (letters 'b' n))
      sameHash sameHash := ⟨verify_signedFile valid flat, verify_signedFile valid' flat', rfl⟩
  have differ : letters 'a' n ≠ letters 'b' n := by
    intro same
    have lists : List.replicate n 'a' = List.replicate n 'b' := String.ofList_injective same
    rw [replicate_inj] at lists
    rcases lists.2 with zero | same
    · omega
    · exact absurd same (by decide)
  refine ⟨_, _, _, _, comparable.verified, comparable.verified', comparable.project, ?_⟩
  rintro parse ⟨reports, pages⟩
  obtain ⟨two, named⟩ := differences_signedFile differ
  have first : compareManifests lenient parse _ _ ⟨some 1, none, false⟩ = _ :=
    compareManifests_page comparable .start fun diff mem => fits_of_mem comparable mem
  cases pages with
  | last served done =>
    cases first.symm.trans served
    exact of_decide_eq_false done two
  | next served more passedOn later =>
    cases first.symm.trans served
    obtain ⟨diff, isLast, rfl⟩ := Option.map_eq_some_iff.1 ((if_pos two).symm.trans passedOn)
    obtain ⟨report, served'⟩ := later.served
    have short := short_of_served comparable served'
    rcases named diff (mem_of_mem_take (mem_of_getLast? isLast)) with isPath | isPath
    · rw [isPath, size_letters (.inl rfl)] at short
      omega
    · rw [isPath, size_letters (.inr rfl)] at short
      omega

/-- A reader that knows the two cursors of one comparison by their lengths. -/
def readEither (bytes : List UInt8) : Option CompareCursor :=
  some (cursorAt (signedFile "a") sameHash sameHash (if bytes.length = 207 then "a" else "bb"))

/-- Two short paths, one on each page. -/
theorem short_paths_on_two_pages : ∃ reports,
    ComparePages lenient readEither (signedFile "a") (signedFile "bb")
    (some 1) false none reports ∧ (∀ report ∈ reports, size report.text ≤ maxDiffResponseBytes) ∧
    ∀ path, path ∈ (reports.flatMap ProjectDiffReport.changes).map PathDiff.path ↔
      path = "a" ∨ path = "bb" := by
  have bytes (path : String) : (bytes ⟨cursorVersion, (signedFile "a").commit.project,
      sameHash, sameHash, path⟩).length = size (string path.toList) + 204 := by
    rw [bytes, length_utf8_ofList, size_cursor]
  have sizes : size (string "a".toList) = 3 ∧ size (string "bb".toList) = 4 := by decide
  have named (path : String) :
      path ∈ (signedFile "a").commit.files ∨ path ∈ (signedFile "bb").commit.files ↔
      path = "a" ∨ path = "bb" := by
    rw [files_signedFile, files_signedFile]
  have differ (path : String) :
    (signedFile "a").commit.files[path]? ≠ (signedFile "bb").commit.files[path]? ∨
      false = true ∧ path ∈ (signedFile "a").commit.files ↔ path = "a" ∨ path = "bb" := by
    rw [files_differ (by decide)]
    simp
  obtain ⟨reports, pages, within, -, -, exactly⟩ := (pages_list_every_difference lenient readEither
    (signedFile "a") (signedFile "bb") sameHash sameHash (some 1) false
    (verify_signedFile (by decide +kernel) (by decide +kernel))
    (verify_signedFile (by decide +kernel) (by decide +kernel)) rfl (fun path isFile => by
      rw [readEither, bytes, cursorAt]
      rcases (named path).1 isFile with rfl | rfl
      · rw [sizes.1, if_pos rfl]
      · rw [sizes.2, if_neg (by decide)])).2
    (fun i diff _ _ found => by
      have listed := (differences_signedFile (by decide)).2 diff (mem_of_getElem? found)
      rcases listed with isPath | isPath
      · rw [isPath, sizes.1]; decide
      · rw [isPath, sizes.2]; decide)
  exact ⟨reports, pages, within, fun path => (exactly path).trans (differ path)⟩

end Serving

end Dynodoc.Repository
