import Mathlib.Algebra.Order.BigOperators.Group.List
import Dynodoc.Horizon.Plan
import Dynodoc.Lib.JsonText
import Dynodoc.Repository.Commit
import Dynodoc.Transparency.Encoding

/-! Comparison of the files of two commits, page by page. Reports and cursors are JSON texts, written
as `serde_json` writes them; reading a cursor back is a parameter. -/
namespace Dynodoc.Repository
open Std (ExtTreeMap ExtTreeSet)
open Log (Uuid utf8 asChars hexBytes hexDigits hex)
open Checkpoint (Address)
open Transparency (mem_hexBytes length_hexBytes utf8_hex)
open JsonText List Transparency Authority

def defaultDiffLimit : Nat := 50
def maxDiffLimit : Nat := 100
def maxDiffResponseBytes : Nat := 256 * 1024
def cursorVersion : UInt8 := 1

inductive DiffKind where
  | added
  | removed
  | modified
  | unchanged
  deriving DecidableEq

def DiffKind.text : DiffKind → String
  | added => "added"
  | removed => "removed"
  | modified => "modified"
  | unchanged => "unchanged"

structure PathDiff where
  path : String
  kind : DiffKind
  fromFile : Option FileEntry
  toFile : Option FileEntry
  documentReplaced : Bool
  deriving DecidableEq

structure DiffTotals where
  added : Nat
  removed : Nat
  modified : Nat
  unchanged : Nat
  totalChanges : Nat
  deriving DecidableEq

structure ProjectDiffReport where
  project : Uuid
  fromCommit : Address
  toCommit : Address
  totals : DiffTotals
  changes : List PathDiff
  nextCursor : Option String
  more : Bool
  deriving DecidableEq

structure DiffOptions where
  limit : Option Nat
  cursor : Option String
  includeUnchanged : Bool

structure CompareCursor where
  v : UInt8
  p : Uuid
  fromCommit : Address
  toCommit : Address
  last : String
  deriving DecidableEq

def quotedUuid (id : Uuid) : List Char := string (Log.uuidText id).toList

def addressText (address : Address) : List Char := string (Horizon.hex address).toList

def FileEntry.text (entry : FileEntry) : List Char :=
  object [("document", quotedUuid entry.document), ("state", addressText entry.state)]

/-- A member that is left out when there is nothing to write. -/
def optionalMember {α : Type} (name : String) (text : α → List Char) (value : Option α) :
    List (String × List Char) :=
  (value.map fun a => (name, text a)).toList

def PathDiff.text (diff : PathDiff) : List Char :=
  object ([("path", string diff.path.toList), ("kind", string diff.kind.text.toList)] ++
    optionalMember "from" FileEntry.text diff.fromFile ++ optionalMember "to" FileEntry.text diff.toFile ++
    if diff.documentReplaced then [("document_replaced", bool true)] else [])

def DiffTotals.text (totals : DiffTotals) : List Char :=
  object [("added", number totals.added), ("removed", number totals.removed),
    ("modified", number totals.modified), ("unchanged", number totals.unchanged),
    ("total_changes", number totals.totalChanges)]

def ProjectDiffReport.text (report : ProjectDiffReport) : List Char :=
  object ([("project", quotedUuid report.project), ("from", addressText report.fromCommit),
    ("to", addressText report.toCommit), ("totals", report.totals.text),
    ("changes", array (report.changes.map PathDiff.text))] ++
    optionalMember "next_cursor" (fun cursor => string cursor.toList) report.nextCursor ++
    [("more", bool report.more)])

def CompareCursor.text (cursor : CompareCursor) : List Char :=
  object [("v", number cursor.v.toNat), ("p", quotedUuid cursor.p), ("from", addressText cursor.fromCommit),
    ("to", addressText cursor.toCommit), ("last", string cursor.last.toList)]

namespace CompareCursor

variable (parse : List UInt8 → Option CompareCursor)

def bytes (cursor : CompareCursor) : List UInt8 := utf8 (String.ofList cursor.text)

def encode (cursor : CompareCursor) : String := hex cursor.bytes

def decode (raw : String) (project : Uuid) (fromCommit toCommit : Address) : Except Error CompareCursor :=
  let size := (utf8 raw).length
  if size % 2 ≠ 0 ∨ size > 2048 then .error (.invalid "invalid cursor encoding")
  else
    match unhex raw (size / 2) with
    | .error _ => .error (.invalid "invalid cursor hex")
    | .ok bytes =>
      match parse bytes with
      | none => .error (.invalid "invalid cursor payload")
      | some cursor =>
        if cursor.v ≠ cursorVersion then .error (.invalid "unsupported cursor version")
        else if cursor.p ≠ project ∨ cursor.fromCommit ≠ fromCommit ∨ cursor.toCommit ≠ toCommit then
          .error (.invalid "cursor project or commit mismatch")
        else .ok cursor

end CompareCursor

section Compare

def comparePath (fromCommit toCommit : Commit) (includeUnchanged : Bool)
    (state : DiffTotals × List PathDiff) (path : String) : DiffTotals × List PathDiff :=
  let (totals, diffs) := state
  match fromCommit.files[path]?, toCommit.files[path]? with
  | none, some toFile =>
    ({ totals with added := totals.added + 1 }, diffs ++ [⟨path, .added, none, some toFile, false⟩])
  | some fromFile, none =>
    ({ totals with removed := totals.removed + 1 }, diffs ++ [⟨path, .removed, some fromFile, none, false⟩])
  | some fromFile, some toFile =>
    if fromFile = toFile then
      ({ totals with unchanged := totals.unchanged + 1 },
        if includeUnchanged then diffs ++ [⟨path, .unchanged, some fromFile, some toFile, false⟩]
        else diffs)
    else
      ({ totals with modified := totals.modified + 1 },
        diffs ++ [⟨path, .modified, some fromFile, some toFile, fromFile.document ≠ toFile.document⟩])
  -- `unreachable!()`: every path is one of either commit.
  | none, none => state

def itemBytes (diff : PathDiff) : Nat := (utf8 (String.ofList diff.text)).length + 2

/-- The differences that a page has room for, and whether it was left before the end. -/
def fillPage (limit : Nat) : List PathDiff → List PathDiff → Nat → List PathDiff × Bool
  | [], page, _ => (page, false)
  | diff :: rest, page, currentBytes =>
    if page.length ≥ limit then (page, true)
    else if currentBytes + itemBytes diff > maxDiffResponseBytes then (page, true)
    else fillPage limit rest (page ++ [diff]) (currentBytes + itemBytes diff)

def pageReport (project : Uuid) (fromAddr toAddr : Address) (totals : DiffTotals) (limit : Nat)
    (candidates : List PathDiff) : ProjectDiffReport :=
  -- The first bytes are an estimate of what stands around the changes.
  let (page, left) := fillPage limit candidates [] 256
  let more := left || candidates.length > page.length
  let nextCursor :=
    if more then
      page.getLast?.map fun diff =>
        CompareCursor.encode ⟨cursorVersion, project, fromAddr, toAddr, diff.path⟩
    else none
  ⟨project, fromAddr, toAddr, totals, page, nextCursor, more⟩

variable (env : Externals) (parse : List UInt8 → Option CompareCursor)

def compareManifests (source target : SignedCommit) (options : DiffOptions) :
    Except Error ProjectDiffReport := do
  let fromAddr ← source.verify env
  let toAddr ← target.verify env
  source.commit.validate
  target.commit.validate
  if source.commit.project ≠ target.commit.project then .error (.invalid "compare project scope")
  else do
    let project := source.commit.project
    let cursor ←
      match options.cursor with
      | some raw => do
        let cursor ← CompareCursor.decode parse raw project fromAddr toAddr
        .ok (some cursor)
      | none => .ok none
    let limit := max 1 (min (options.limit.getD defaultDiffLimit) maxDiffLimit)
    let allPaths := (ExtTreeSet.ofList (source.commit.files.keys ++ target.commit.files.keys)).toList
    let (totals, allDiffs) := allPaths.foldl
      (comparePath source.commit target.commit options.includeUnchanged) (⟨0, 0, 0, 0, 0⟩, [])
    let totals := { totals with totalChanges := totals.added + totals.removed + totals.modified }
    let candidates :=
      match cursor with
      | some c => allDiffs.filter fun diff => compare c.last diff.path = .lt
      | none => allDiffs
    .ok (pageReport project fromAddr toAddr totals limit candidates)

end Compare

theorem length_utf8_ofList (text : List Char) : (utf8 (String.ofList text)).length = size text := by
  rw [← size_ofList]
  rfl

/-- Hexadecimal digits and hyphens. -/
def IsMark (c : Char) : Prop := Plain c ∧ c.utf8Size = 1

theorem size_string_marks {text : List Char} (marks : ∀ c ∈ text, IsMark c) :
    size (string text) = text.length + 2 := by
  rw [size_string fun c mem => (marks c mem).1, size_of_narrow fun c mem => (marks c mem).2]

theorem isMark_hexBytes {bytes : List UInt8} {c : Char} (mem : c ∈ asChars (hexBytes bytes)) :
    IsMark c := by
  obtain ⟨digit, isDigit, rfl⟩ := mem_map.1 mem
  obtain ⟨n, small, rfl⟩ := mem_hexBytes isDigit
  exact (by decide +kernel : ∀ n < 16, Plain (Char.ofUInt8 (hexDigits.getD n 0)) ∧
    (Char.ofUInt8 (hexDigits.getD n 0)).utf8Size = 1) n small

theorem length_asChars_hexBytes (bytes : List UInt8) :
    (asChars (hexBytes bytes)).length = bytes.length * 2 := by
  rw [asChars, length_map, length_hexBytes]

theorem size_string_hex (bytes : List UInt8) :
    size (string (hex bytes).toList) = bytes.length * 2 + 2 := by
  rw [hex, String.toList_ofList, size_string_marks fun c mem => isMark_hexBytes mem,
    length_asChars_hexBytes]

theorem size_addressText (address : Address) : size (addressText address) = 66 := by
  rw [addressText, Horizon.hex, size_string_hex, address.2]

theorem size_quotedUuid (id : Uuid) : size (quotedUuid id) = 38 := by
  have hyphen : IsMark '-' := ⟨by decide, by decide⟩
  rw [quotedUuid, Log.uuidText, String.toList_ofList, size_string_marks]
  · simp [intercalate, length_asChars_hexBytes, id.2]
  · intro c mem
    simp only [map_cons, map_nil, intercalate_cons_cons, intercalate_singleton, mem_append,
      mem_singleton, or_assoc] at mem
    rcases mem with mem | rfl | mem | rfl | mem | rfl | mem | rfl | mem
    all_goals first | exact hyphen | exact isMark_hexBytes mem

theorem size_fileEntry (entry : FileEntry) : size entry.text = 126 := by
  rw [FileEntry.text, size_object]
  simp only [map_cons, size_quotedUuid, size_addressText, length_cons]
  decide

theorem size_kind (kind : DiffKind) : size (string kind.text.toList) ≤ 11 := by
  cases kind <;> decide

theorem size_pathDiff (diff : PathDiff) : size diff.text ≤ size (string diff.path.toList) + 319 := by
  have names : size (string "path".toList) = 6 ∧ size (string "kind".toList) = 6 ∧
      size (string "from".toList) = 6 ∧ size (string "to".toList) = 4 ∧
      size (string "document_replaced".toList) = 19 ∧ size (bool true) = 4 := by decide
  have kind := size_kind diff.kind
  rw [PathDiff.text, size_object]
  cases diff.fromFile <;> cases diff.toFile <;> cases diff.documentReplaced <;>
    simp only [optionalMember, Option.map_none, Option.map_some, Option.toList_none, Option.toList_some,
      Bool.false_eq_true, if_true, if_false, append_nil, cons_append, nil_append,
      map_cons, map_nil, sum_cons, sum_nil, length_cons, length_nil,
      size_fileEntry, names] <;>
    omega

open CompareCursor

theorem size_cursor (project : Uuid) (fromCommit toCommit : Address) (last : String) :
    size (text ⟨cursorVersion, project, fromCommit, toCommit, last⟩) =
      size (string last.toList) + 204 := by
  have names : size (string "v".toList) = 3 ∧ size (string "p".toList) = 3 ∧
      size (string "from".toList) = 6 ∧ size (string "to".toList) = 4 ∧ size (string "last".toList) = 6 ∧
      size (number cursorVersion.toNat) = 1 := by decide
  rw [text, size_object]
  simp only [map_cons, map_nil, sum_cons, sum_nil, length_cons, length_nil,
    size_quotedUuid, size_addressText, names]
  omega

theorem size_totals {totals : DiffTotals} (added : totals.added < 10 ^ 4)
    (removed : totals.removed < 10 ^ 4)
    (modified : totals.modified < 10 ^ 4) (unchanged : totals.unchanged < 10 ^ 4)
    (total : totals.totalChanges < 10 ^ 4) : size totals.text ≤ 83 := by
  have names : size (string "added".toList) = 7 ∧ size (string "removed".toList) = 9 ∧
      size (string "modified".toList) = 10 ∧ size (string "unchanged".toList) = 11 ∧
      size (string "total_changes".toList) = 15 := by decide
  have := size_number added (by decide)
  have := size_number removed (by decide)
  have := size_number modified (by decide)
  have := size_number unchanged (by decide)
  have := size_number total (by decide)
  rw [DiffTotals.text, size_object]
  simp only [map_cons, map_nil, sum_cons, sum_nil, length_cons, length_nil, names]
  omega

theorem size_report {report : ProjectDiffReport} (longest cursor : Nat)
    (totals : size report.totals.text ≤ 83) (changes : ∀ diff ∈ report.changes, size diff.text ≤ longest)
    (next : ∀ text, report.nextCursor = some text → size (string text.toList) ≤ cursor) :
    size report.text ≤ 400 + report.changes.length * (longest + 1) + cursor := by
  have names : size (string "project".toList) = 9 ∧ size (string "from".toList) = 6 ∧
      size (string "to".toList) = 4 ∧ size (string "totals".toList) = 8 ∧
      size (string "changes".toList) = 9 ∧ size (string "next_cursor".toList) = 13 ∧
      size (string "more".toList) = 6 := by decide
  have more : size (bool report.more) ≤ 5 := by cases report.more <;> decide
  have listed : ((report.changes.map PathDiff.text).map size).sum ≤ report.changes.length * longest := by
    refine (sum_le_card_nsmul _ longest ?_).trans_eq (by simp)
    simpa using changes
  rw [ProjectDiffReport.text, size_object]
  cases given : report.nextCursor with
  | none =>
    simp only [optionalMember, Option.map_none, Option.toList_none, append_nil, cons_append,
      nil_append, map_cons, map_nil, sum_cons, sum_nil, length_cons,
      length_nil, size_quotedUuid, size_addressText, size_array, length_map, names]
    rw [Nat.mul_succ]
    omega
  | some text =>
    have := next text given
    simp only [optionalMember, Option.map_some, Option.toList_some, cons_append, nil_append,
      map_cons, map_nil, sum_cons, sum_nil, length_cons, length_nil,
      size_quotedUuid, size_addressText, size_array, length_map, names]
    rw [Nat.mul_succ]
    omega

section Cursors

variable (bytes : List UInt8)

theorem hexDigits_spec {n : Nat} (small : n < 16) :
    isHexDigit (hexDigits.getD n 0) ∧ hexValue (hexDigits.getD n 0) = n :=
  (by decide +kernel : ∀ n < 16,
    isHexDigit (hexDigits.getD n 0) ∧ hexValue (hexDigits.getD n 0) = n) n small

theorem hexPairs_hexBytes : hexPairs (hexBytes bytes) = bytes := by
  induction bytes with
  | nil => rfl
  | cons b bytes ih =>
    have bound := b.toNat_lt
    have high := (hexDigits_spec (show b.toNat / 16 < 16 by omega)).2
    have low := (hexDigits_spec (show b.toNat % 16 < 16 by omega)).2
    have whole : b.toNat / 16 * 16 + b.toNat % 16 = b.toNat := by omega
    have step : hexBytes (b :: bytes) = hexDigits.getD (b.toNat / 16) 0 ::
        hexDigits.getD (b.toNat % 16) 0 :: hexBytes bytes := rfl
    rw [step, hexPairs, ih, high, low, whole, UInt8.ofNat_toNat]

theorem unhex_hex : unhex (hex bytes) bytes.length = .ok bytes := by
  have digits : (hexBytes bytes).all isHexDigit = true := by
    rw [all_eq_true]
    intro digit mem
    obtain ⟨n, small, rfl⟩ := mem_hexBytes mem
    exact (hexDigits_spec small).1
  unfold unhex Authority.unhex
  rw [utf8_hex]
  rw [if_neg (by simp [length_hexBytes, digits]), hexPairs_hexBytes]

theorem size_encoded (cursor : CompareCursor) :
    size (string cursor.encode.toList) = size cursor.text * 2 + 2 := by
  rw [encode, size_string_hex, bytes, length_utf8_ofList]

/-- A cursor is accepted unless its text has more than 1024 bytes. -/
theorem decode_encode {parse : List UInt8 → Option CompareCursor} {cursor : CompareCursor}
    (version : cursor.v = cursorVersion)
    (reads : size cursor.text ≤ 1024 → parse cursor.bytes = some cursor) :
    decode parse cursor.encode cursor.p cursor.fromCommit cursor.toCommit =
      if 1024 < size cursor.text then .error (.invalid "invalid cursor encoding") else .ok cursor := by
  have length : (utf8 cursor.encode).length = size cursor.text * 2 := by
    rw [encode, utf8_hex, length_hexBytes, bytes, length_utf8_ofList]
  have half : size cursor.text * 2 / 2 = cursor.bytes.length := by
    rw [bytes, length_utf8_ofList]
    omega
  unfold decode
  rw [length]
  by_cases long : 1024 < size cursor.text
  · rw [if_pos (by omega), if_pos long]
  · rw [if_neg (by omega), if_neg long, half, encode, unhex_hex]
    dsimp only
    rw [reads (by omega)]
    simp [version]

end Cursors

end Dynodoc.Repository
