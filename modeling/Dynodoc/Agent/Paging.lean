import Std.Data.ExtTreeMap
import Dynodoc.Agent.Budget
import Dynodoc.Log.Chain

/-! Responses in pages: each holds as many units as fit the byte budget and says where the next
page starts. -/
namespace Dynodoc.Agent
open Std (ExtTreeMap)
open Log (Uuid hex uuidText)
open Loop List

variable {start : Nat} {cursor : Option String} {c : Option Cursor}

structure FileMeta where
  id : Uuid
  rev : UInt64
  chain : String

def FileMeta.shortId (file : FileMeta) : String := hex (file.id.1.take 4)

def isAsciiHexDigit (c : Char) : Bool := c.isDigit || ('a' ≤ c && c ≤ 'f') || ('A' ≤ c && c ≤ 'F')

/-- The first eight digits of the chain hash; zeros if it is not one. -/
def FileMeta.chain8 (file : FileMeta) : String :=
  let head := file.chain.toList.take 8
  if head.length = 8 ∧ head.all isAsciiHexDigit then String.ofList (head.map Char.toLower)
  else "00000000"

structure Warnings where
  stale : Bool
  lowBudget : Bool
  truncated : Bool
  redacted : Bool
  dropped : Dropped

def Warnings.codes (w : Warnings) : List String :=
  (if w.stale then ["stale"] else []) ++ (if w.lowBudget then ["low_budget"] else []) ++
    (if w.truncated then ["truncated"] else []) ++ (if w.redacted then ["redacted"] else []) ++
    (if w.dropped.ctrl > 0 then ["ctrl"] else []) ++ (if w.dropped.hidden > 0 then ["hidden"] else [])

def Warnings.apply (w : Warnings) (h : HeaderBuilder) : HeaderBuilder :=
  if w.codes = [] then h else h.kv "warn" (String.intercalate "," w.codes)

structure Budget where
  maxBytes : Nat
  bytes : Nat
  estTokens : Nat

structure Meta where
  file : Option String
  rev : Option UInt64
  chain : Option String
  cursor : Option String
  budget : Budget
  ids : ExtTreeMap String String
  warn : List String

def estimateTokens (bytes : Nat) : Nat := (bytes + 3) / 4

def Meta.new (file : Option FileMeta) (textLen maxBytes : Nat) (cursor : Option String)
    (ids : ExtTreeMap String String) (warnings : Warnings) : Meta where
  file := file.map fun f => uuidText f.id
  rev := file.map FileMeta.rev
  chain := file.map FileMeta.chain
  cursor := cursor
  budget := ⟨maxBytes, textLen, estimateTokens textLen⟩
  ids := ids
  warn := warnings.codes

structure Response (α : Type) where
  text : String
  info : Meta
  data : α

/-- What differs between the list-like tools. -/
structure PagedSpec where
  tool : Tool
  file : Option FileMeta
  lead : List (String × String)
  quoted : List (String × String)
  headerRev : Bool
  showN : Bool
  tail : List (String × String)
  baseWarn : Warnings
  fixed : String
  fixedDropped : Dropped
  cursorAux : Option UInt64

/-- What was dropped before each unit, and in all. -/
def cumulative (units : List TextUnit) : List Dropped :=
  units.scanl (fun acc unit => acc.add unit.dropped) ⟨0, 0⟩

namespace PagedSpec

variable (spec : PagedSpec)

def rev : UInt64 := (spec.file.map FileMeta.rev).getD 0

def cursorAt (pos : Nat) : Cursor := ⟨spec.rev, UInt64.ofNat pos, spec.cursorAux⟩

def fileHeader (h : HeaderBuilder) : HeaderBuilder :=
  match spec.file with
  | none => h
  | some f =>
    let h := h.kv "file" f.shortId
    if spec.headerRev then (h.kv "rev" (toString f.rev.toNat)).kv "chain" f.chain8 else h

def droppedIn (units : List TextUnit) (start taken : Nat) : Dropped :=
  let before := (cumulative units)[start]?.getD ⟨0, 0⟩
  let after := (cumulative units)[start + taken]?.getD ⟨0, 0⟩
  spec.fixedDropped.add ⟨after.ctrl - before.ctrl, after.hidden - before.hidden⟩

def header (units : List TextUnit) (start taken : Nat) (more : Bool) : HeaderBuilder :=
  let h := spec.fileHeader (HeaderBuilder.new spec.tool)
  let h := spec.lead.foldl (fun h (k, v) => h.kv k v) h
  let h := spec.quoted.foldl (fun h (k, v) => h.kvQuoted k v) h
  let h := if spec.showN then h.kv "n" (toString taken) else h
  let h := spec.tail.foldl (fun h (k, v) => h.kv k v) h
  let h := if more then h.kv "more" (spec.cursorAt (start + taken)).text else h
  let w := { spec.baseWarn with truncated := more, dropped := spec.droppedIn units start taken }
  (w.apply h).kv "trust" "data"

def body (page : List TextUnit) : String := page.foldl (fun body unit => body ++ unit.text) spec.fixed

def paged {α : Type} (units : List TextUnit) (start limit maxBytes : Nat)
    (data : Nat → Option Cursor → α) : Except AgentError (Response α) := do
  let start := min start units.length
  let taken ← fit units start maxBytes (spec.header units start) limit spec.fixed.utf8ByteSize
  let more := decide (start + taken < units.length)
  let page := (units.drop start).take taken
  let text := (spec.header units start taken more).assemble (spec.body page)
  let cursor := if more then some (spec.cursorAt (start + taken)) else none
  let warn := { spec.baseWarn with
    truncated := more
    dropped := page.foldl (fun dropped unit => dropped.add unit.dropped) spec.fixedDropped }
  let ids := page.foldl (fun ids unit => unit.ids.foldl (fun ids (r, id) => ids.insert r id) ids) ∅
  .ok ⟨text, .new spec.file text.utf8ByteSize maxBytes (cursor.map Cursor.text) ids warn, data taken cursor⟩

end PagedSpec

section Following

variable (spec : PagedSpec) (units : List TextUnit) (limit maxBytes : Nat)

/-- What a client needs of a page: how many units, and the cursor of the next. -/
def progress (taken : Nat) (cursor : Option Cursor) : Nat × Option Cursor := (taken, cursor)

def PagedSpec.pageAt (cursor : Option String) : Except AgentError (Response (Nat × Option Cursor)) := do
  let position ← startPosition cursor spec.rev
  spec.paged units position.1 limit maxBytes progress

inductive Stop where
  | done
  | failed (e : AgentError)

/-- The pages from a cursor on, each from the cursor of the one before it, for so many at most; and
how they stop. -/
def PagedSpec.follow : Nat → Option String → List (Response (Nat × Option Cursor)) × Option Stop
  | 0, _ => ([], none)
  | fuel + 1, cursor =>
    match spec.pageAt units limit maxBytes cursor with
    | .error e => ([], some (.failed e))
    | .ok response =>
      match response.data.2 with
      | none => ([response], some .done)
      | some next =>
        let rest := follow fuel (some next.text)
        (response :: rest.1, rest.2)

def PagedSpec.pageText (start taken : Nat) : String :=
  (spec.header units start taken (start + taken < units.length)).assemble
    (spec.body ((units.drop start).take taken))

/-- Pages that hold the units from one on, each once and in order and within the budget, to the end
or up to a unit that is too long for a page of its own. -/
inductive Pages : Nat → List (Response (Nat × Option Cursor)) → Stop → Prop
  | last {start : Nat} {response : Response (Nat × Option Cursor)}
    (text : response.text = spec.pageText units start (units.length - start))
    (fits : response.text.utf8ByteSize ≤ maxBytes) : Pages start [response] .done
  | next {start taken : Nat} {response : Response (Nat × Option Cursor)}
    {rest : List (Response (Nat × Option Cursor))} {stop : Stop} (moved : 0 < taken)
    (left : start + taken < units.length) (text : response.text = spec.pageText units start taken)
    (fits : response.text.utf8ByteSize ≤ maxBytes) (later : Pages (start + taken) rest stop) :
    Pages start (response :: rest) stop
  | stuck {start : Nat} (left : start < units.length)
    (long : maxBytes < (spec.pageText units start 1).utf8ByteSize) :
    Pages start [] (.failed (.limitExceeded "max_bytes" maxBytes
      (spec.pageText units start 1).utf8ByteSize))

variable {spec units limit maxBytes}

open PagedSpec

theorem body_size (page : List TextUnit) :
    (spec.body page).utf8ByteSize = spec.fixed.utf8ByteSize + textSize page := by
  unfold body
  generalize spec.fixed = body
  induction page generalizing body with
  | nil => simp [textSize]
  | cons unit page ih =>
    rw [foldl_cons, ih, String.utf8ByteSize_append]
    simp only [textSize, map_cons, sum_cons]
    omega

theorem pageText_size (start taken : Nat) : (spec.pageText units start taken).utf8ByteSize =
    pageLen units start (spec.header units start) spec.fixed.utf8ByteSize taken := by
  rw [pageText, assemble_size, body_size, pageLen]

theorem paged_eq_ok {taken : Nat} (inside : start ≤ units.length)
    (fitted : fit units start maxBytes (spec.header units start) limit spec.fixed.utf8ByteSize =
    .ok taken) :
    ∃ response, spec.paged units start limit maxBytes progress = .ok response ∧
      response.text = spec.pageText units start taken ∧
      response.data.2 = if start + taken < units.length then some (spec.cursorAt (start + taken))
      else none := by
  unfold paged
  dsimp only
  rw [Nat.min_eq_left inside, fitted]
  refine ⟨_, rfl, rfl, ?_⟩
  simp [progress]

variable (spec maxBytes) in
/-- A page takes some units within the budget, or fails at the first. -/
theorem paged_spec (positive : 0 < limit) (left : start < units.length) :
    (∃ taken response, spec.paged units start limit maxBytes progress = .ok response ∧ 0 < taken ∧
      start + taken ≤ units.length ∧ response.text = spec.pageText units start taken ∧
      response.text.utf8ByteSize ≤ maxBytes ∧
      response.data.2 = if start + taken < units.length then some (spec.cursorAt (start + taken))
      else none) ∨
    (maxBytes < (spec.pageText units start 1).utf8ByteSize ∧
      spec.paged units start limit maxBytes progress =
        .error (.limitExceeded "max_bytes" maxBytes (spec.pageText units start 1).utf8ByteSize)) := by
  rw [pageText_size]
  rcases fit_spec positive left with ⟨taken, fitted, moved, inside, fits⟩ | ⟨long, failed⟩
  · obtain ⟨response, served, text, cursor⟩ := paged_eq_ok left.le fitted
    exact .inl ⟨taken, response, served, moved, inside, text, by rwa [text, pageText_size], cursor⟩
  · refine .inr ⟨long, ?_⟩
    unfold paged
    dsimp only
    rw [Nat.min_eq_left left.le, failed]
    rfl

theorem pageAt_eq (position : startPosition cursor spec.rev = .ok (start, c)) :
    spec.pageAt units limit maxBytes cursor = spec.paged units start limit maxBytes progress := by
  unfold pageAt
  rw [position]
  rfl

theorem startPosition_cursorAt {pos : Nat} (bounded : pos < 2 ^ 64) :
    startPosition (some (spec.cursorAt pos).text) spec.rev = .ok (pos, some (spec.cursorAt pos)) := by
  have read := startPosition_text (spec.cursorAt pos)
  rwa [show (spec.cursorAt pos).pos.toNat = pos from Nat.mod_eq_of_lt bounded] at read

variable (spec maxBytes) in
/-- From a position on, the pages reach the end or a unit that is too long. -/
theorem follow_spec (positive : 0 < limit) (bounded : units.length < 2 ^ 64)
    (position : startPosition cursor spec.rev = .ok (start, c)) (left : start < units.length) :
    ∃ pages stop, (∀ fuel, units.length - start ≤ fuel →
        spec.follow units limit maxBytes fuel cursor = (pages, some stop)) ∧
      pages.length ≤ units.length - start ∧ Pages spec units maxBytes start pages stop := by
  -- Each page takes a unit, so what is left gets shorter.
  induction remaining : units.length - start using Nat.strong_induction_on generalizing start cursor c with
  | _ remaining ih =>
  subst remaining
  rcases paged_spec spec maxBytes positive left with
    ⟨taken, response, served, moved, inside, text, fits, next⟩ | ⟨long, failed⟩
  · by_cases more : start + taken < units.length
    · rw [if_pos more] at next
      have resumed : startPosition (some (spec.cursorAt (start + taken)).text) spec.rev = _ :=
        startPosition_cursorAt (by omega)
      obtain ⟨rest, stop, followed, short, later⟩ := ih _ (by omega) resumed more rfl
      refine ⟨response :: rest, stop, ?_, ?_, .next moved more text fits later⟩
      · intro fuel enough
        obtain ⟨fuel, rfl⟩ : ∃ n, fuel = n + 1 := ⟨fuel - 1, by omega⟩
        rw [follow, pageAt_eq position, served]
        simp only [next]
        rw [followed fuel (by omega)]
      · rw [length_cons]
        omega
    · rw [if_neg more] at next
      have all : taken = units.length - start := by omega
      subst all
      refine ⟨[response], .done, ?_, ?_, .last text fits⟩
      · intro fuel enough
        obtain ⟨fuel, rfl⟩ : ∃ n, fuel = n + 1 := ⟨fuel - 1, by omega⟩
        rw [follow, pageAt_eq position, served]
        simp [next]
      · rw [length_singleton]
        omega
  · refine ⟨[], _, ?_, Nat.zero_le _, .stuck left long⟩
    intro fuel enough
    obtain ⟨fuel, rfl⟩ : ∃ n, fuel = n + 1 := ⟨fuel - 1, by omega⟩
    rw [follow, pageAt_eq position, failed]

variable (spec limit maxBytes) in
theorem follow_nil : ∃ response, response.text = spec.pageText [] 0 0 ∧
    ∀ fuel, spec.follow [] limit maxBytes (fuel + 1) none = ([response], some .done) := by
  have empty : fit [] 0 maxBytes (spec.header [] 0) limit spec.fixed.utf8ByteSize = .ok 0 := by
    simp [fit, fitFrom]
  obtain ⟨response, served, text, next⟩ := paged_eq_ok (Nat.zero_le _) empty
  refine ⟨response, text, ?_⟩
  intro fuel
  rw [follow, pageAt_eq rfl, served]
  simp only [next]
  rfl

theorem pageText_nil_size : (spec.pageText [] 0 0).utf8ByteSize =
    (spec.header [] 0 0 false).assembledLen spec.fixed.utf8ByteSize := by
  rw [pageText, assemble_size, body_size]
  rfl

/-- Without units there is one page, and nothing has compared it with the budget. -/
theorem pages_nil_iff : (∃ pages stop, (∀ fuel, 0 < fuel →
        spec.follow [] limit maxBytes fuel none = (pages, some stop)) ∧
      pages.length ≤ 1 ∧ Pages spec [] maxBytes 0 pages stop) ↔
    (spec.header [] 0 0 false).assembledLen spec.fixed.utf8ByteSize ≤ maxBytes := by
  obtain ⟨response, text, followed⟩ := follow_nil spec limit maxBytes
  rw [← pageText_nil_size, ← text]
  constructor
  · rintro ⟨pages, stop, read, -, covered⟩
    obtain ⟨rfl, -⟩ : [response] = pages ∧ some Stop.done = some stop :=
      Prod.mk.inj ((followed 0).symm.trans (read 1 Nat.one_pos))
    cases covered with
    | last _ fits => exact fits
    | next _ left => contradiction
  · intro room
    refine ⟨[response], .done, ?_, by simp, .last text room⟩
    intro fuel enough
    obtain ⟨fuel, rfl⟩ : ∃ n, fuel = n + 1 := ⟨fuel - 1, by omega⟩
    exact followed fuel

/-- The pages a client reads by following the cursors hold every unit once, in order and within the
budget, or stop at a unit that no page can hold, if and only if there are units or the header and
the fixed part of the body alone are within the budget. -/
theorem pages_cover_units (positive : 0 < limit) (bounded : units.length < 2 ^ 64) :
    (∃ pages stop, (∀ fuel, units.length < fuel →
        spec.follow units limit maxBytes fuel none = (pages, some stop)) ∧
      pages.length ≤ max 1 units.length ∧ Pages spec units maxBytes 0 pages stop) ↔
    (units = [] → (spec.header [] 0 0 false).assembledLen spec.fixed.utf8ByteSize ≤ maxBytes) := by
  by_cases empty : units = []
  · subst empty
    simpa using pages_nil_iff
  · have left : 0 < units.length := length_pos_iff.mpr empty
    have first : startPosition none spec.rev = .ok (0, none) := rfl
    obtain ⟨pages, stop, followed, short, covered⟩ := follow_spec spec maxBytes positive bounded first left
    refine ⟨fun _ none => absurd none empty, fun _ => ⟨pages, stop, ?_, by omega, covered⟩⟩
    exact fun fuel enough => followed fuel (by omega)

def findSpec (file : FileMeta) (q total : String) : PagedSpec where
  tool := .find
  file := some file
  lead := []
  quoted := [("q", q)]
  headerRev := true
  showN := true
  tail := [("total", total)]
  baseWarn := ⟨false, false, false, false, ⟨0, 0⟩⟩
  fixed := ""
  fixedDropped := ⟨0, 0⟩
  cursorAux := none

def sampleFile : FileMeta := ⟨⟨replicate 16 0, rfl⟩, 7, "0a1b2c3d4e"⟩

def sampleHits : List TextUnit :=
  [⟨"b1 first clause\n", ⟨0, 0⟩, [("b1", "n1")]⟩, ⟨"b2 second clause\n", ⟨0, 0⟩, [("b2", "n2")]⟩]

theorem two_hits_in_pages : ∃ pages stop, (∀ fuel, sampleHits.length < fuel →
      (findSpec sampleFile "clause" "2").follow sampleHits 1 500 fuel none = (pages, some stop)) ∧
    pages.length ≤ max 1 sampleHits.length ∧
    Pages (findSpec sampleFile "clause" "2") sampleHits 500 0 pages stop :=
  (pages_cover_units (by decide) (by decide)).2 (by decide)

theorem find_shows_query (file : FileMeta) (q total : String) (taken : Nat) (more : Bool) :
    ("q", quote q) ∈ ((findSpec file q total).header [] 0 taken more).pairs := by
  unfold header Warnings.apply
  dsimp only [findSpec]
  split <;> split <;>
    simp [HeaderBuilder.kv, HeaderBuilder.kvQuoted]

/-- A text of 200 characters is short enough to look for, and without hits its header is all there is
to a page; yet it takes more bytes than the smallest budget. -/
theorem page_without_units_too_long :
    ∃ response, (findSpec sampleFile (String.ofList (replicate 200 '€')) "0").follow [] 20 500 1 none =
        ([response], some .done) ∧
      500 < response.text.utf8ByteSize := by
  have long : 500 < (quote (String.ofList (replicate 200 '€'))).utf8ByteSize := by
    rw [quote_size]
    decide +kernel
  generalize String.ofList (replicate 200 '€') = q at long ⊢
  obtain ⟨response, text, followed⟩ := follow_nil (findSpec sampleFile q "0") 20 500
  refine ⟨response, followed 0, ?_⟩
  rw [text]
  exact long.trans (value_lt_assemble (find_shows_query sampleFile q "0" 0 false) _)

end Following

end Dynodoc.Agent
