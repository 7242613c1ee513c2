import Dynodoc.Agent.Header
import Dynodoc.Lib.Loop

/-! The byte budget of a response, and the cursor that says where the next one goes on. -/
namespace Dynodoc.Agent
open Loop List Nat

inductive AgentError where
  | badRequest (field : String)
  | limitExceeded (field : String) (limit value : Nat)
  deriving DecidableEq

structure Cursor where
  rev : UInt64
  pos : UInt64
  aux : Option UInt64
  deriving DecidableEq

def hexText (n : Nat) : List Char := toDigits 16 n

def Cursor.chars (c : Cursor) : List Char :=
  'c' :: '_' :: ['.'].intercalate
    ([c.rev, c.pos].map (hexText ·.toNat) ++ c.aux.toList.map (hexText ·.toNat))

def Cursor.text (c : Cursor) : String := String.ofList c.chars

def isHexChar (c : Char) : Bool := c.isDigit || ('a' ≤ c && c ≤ 'f')

def hexDigit (c : Char) : Nat := if c.isDigit then c.toNat - 48 else c.toNat - 97 + 10

/-- Lowercase digits without leading zeros, so that each number has one spelling. -/
def parseHex (part : List Char) : Option UInt64 :=
  if part ≠ [] ∧ part.length ≤ 16 ∧ part.all isHexChar ∧ (part = ['0'] ∨ part.head? ≠ some '0') then
    some (UInt64.ofNat (part.foldl (fun n c => n * 16 + hexDigit c) 0))
  else none

def Cursor.parse (text : String) : Option Cursor :=
  match text.toList with
  | 'c' :: '_' :: rest =>
    match rest.splitOn '.' with
    | [rev, pos] => do return ⟨← parseHex rev, ← parseHex pos, none⟩
    | [rev, pos, aux] => do return ⟨← parseHex rev, ← parseHex pos, some (← parseHex aux)⟩
    | _ => none
  | _ => none

def Cursor.checkRev (c : Cursor) (rev : UInt64) : Except AgentError Unit :=
  if c.rev = rev then .ok () else .error (.badRequest "cursor")

def startPosition (cursor : Option String) (rev : UInt64) : Except AgentError (Nat × Option Cursor) :=
  match cursor with
  | none => .ok (0, none)
  | some raw =>
    match Cursor.parse raw with
    | none => .error (.badRequest "cursor")
    | some c => do
      c.checkRev rev
      .ok (c.pos.toNat, some c)

/-- One piece of a response body that is never split, and the refs in it with their nodes. -/
structure TextUnit where
  text : String
  dropped : Dropped
  ids : List (String × String)

section Fit

variable (units : List TextUnit) (start maxBytes : Nat) (header : Nat → Bool → HeaderBuilder)

def fitFrom : List TextUnit → (body taken : Nat) → Except AgentError Nat
  | [], _, taken => .ok taken
  | unit :: rest, body, taken =>
    let len := (header (taken + 1) (start + (taken + 1) < units.length)).assembledLen
      (body + unit.text.utf8ByteSize)
    if len > maxBytes then
      if taken = 0 then .error (.limitExceeded "max_bytes" maxBytes len) else .ok taken
    else fitFrom rest (body + unit.text.utf8ByteSize) (taken + 1)

/-- How many units fit into one response, with a part of the body that is always there. -/
def fit (limit fixed : Nat) : Except AgentError Nat :=
  fitFrom units start maxBytes header ((units.drop start).take limit) fixed 0

end Fit

theorem hexDigit_digitChar {d : Nat} (small : d < 16) :
    isHexChar d.digitChar ∧ hexDigit d.digitChar = d :=
  (by decide : ∀ d < 16, isHexChar d.digitChar ∧ hexDigit d.digitChar = d) d small

theorem hexText_spec (n : Nat) : (∀ c ∈ hexText n, isHexChar c) ∧
    (hexText n).foldl (fun n c => n * 16 + hexDigit c) 0 = n ∧
    (hexText n = ['0'] ∨ (hexText n).head? ≠ some '0') := by
  induction n using Nat.strong_induction_on with
  | _ n ih =>
    rw [hexText]
    by_cases small : n < 16
    · rw [toDigits_of_lt_base small]
      obtain ⟨isHex, value⟩ := hexDigit_digitChar small
      refine ⟨by simpa using isHex, by simpa using value, ?_⟩
      exact (by decide : ∀ d < 16, [d.digitChar] = ['0'] ∨ [d.digitChar].head? ≠ some '0') n small
    · rw [toDigits_of_base_le (by decide) (by omega)]
      obtain ⟨isHex, value⟩ := hexDigit_digitChar (mod_lt n (by decide : 0 < 16))
      obtain ⟨allHex, whole, leading⟩ := ih (n / 16) (by omega)
      rw [hexText] at allHex whole leading
      refine ⟨?_, ?_, .inr ?_⟩
      · intro c mem
        rcases mem_append.1 mem with mem | mem
        · exact allHex c mem
        · rw [mem_singleton.1 mem]
          exact isHex
      · rw [foldl_append, foldl_cons, foldl_nil]
        omega
      · rcases leading with zero | other
        · rw [zero] at whole
          exact absurd whole (by simp [hexDigit]; omega)
        · rwa [head?_append_of_ne_nil _ toDigits_ne_nil]

theorem parseHex_hexText (n : UInt64) : parseHex (hexText n.toNat) = some n := by
  obtain ⟨allHex, whole, leading⟩ := hexText_spec n.toNat
  have short : (hexText n.toNat).length ≤ 16 :=
    (length_toDigits_le_iff (by decide) (by decide)).2 (n.toNat_lt.trans_eq (by decide))
  rw [parseHex, if_pos ⟨toDigits_ne_nil, short, by simpa using allHex, leading⟩, whole, UInt64.ofNat_toNat]

open Cursor

theorem parse_text (c : Cursor) : parse c.text = some c := by
  have plain (n : UInt64) : '.' ∉ hexText n.toNat := by
    intro mem
    exact absurd ((hexText_spec n.toNat).1 _ mem) (by decide)
  obtain ⟨rev, pos, aux⟩ := c
  have parts : (['.'].intercalate
      ([rev, pos].map (hexText ·.toNat) ++ aux.toList.map (hexText ·.toNat))).splitOn
      '.' = [rev, pos].map (hexText ·.toNat) ++ aux.toList.map (hexText ·.toNat) :=
    splitOn_intercalate '.' (by cases aux <;> simp [plain]) (by simp)
  simp only [parse, text, String.toList_ofList, chars, parts]
  cases aux <;> simp [parseHex_hexText]

theorem startPosition_text (c : Cursor) :
    startPosition (some c.text) c.rev = .ok (c.pos.toNat, some c) := by
  rw [startPosition, parse_text]
  simp [checkRev, bind, Except.bind]

section Fit

variable {units : List TextUnit} {start maxBytes : Nat} {header : Nat → Bool → HeaderBuilder}

def textSize (units : List TextUnit) : Nat := (units.map (·.text.utf8ByteSize)).sum

def pageLen (units : List TextUnit) (start : Nat) (header : Nat → Bool → HeaderBuilder)
    (fixed taken : Nat) : Nat :=
  (header taken (start + taken < units.length)).assembledLen
    (fixed + textSize ((units.drop start).take taken))

theorem textSize_append (first second : List TextUnit) :
    textSize (first ++ second) = textSize first + textSize second := by
  simp [textSize]

/-- What the loop finds: how many units fit, at least one, or that the first alone does not. -/
theorem fitFrom_spec {rest done : List TextUnit} {limit fixed : Nat}
    (split : (units.drop start).take limit = done ++ rest)
    (fits : 0 < done.length → pageLen units start header fixed done.length ≤ maxBytes) :
    (∃ taken, fitFrom units start maxBytes header rest (fixed + textSize done) done.length = .ok taken ∧
      taken ≤ (done ++ rest).length ∧ (done ++ rest ≠ [] → 0 < taken) ∧
      (0 < taken → pageLen units start header fixed taken ≤ maxBytes)) ∨
    (done ++ rest ≠ [] ∧ maxBytes < pageLen units start header fixed 1 ∧
      fitFrom units start maxBytes header rest (fixed + textSize done) done.length =
        .error (.limitExceeded "max_bytes" maxBytes (pageLen units start header fixed 1))) := by
  induction rest generalizing done with
  | nil =>
    refine .inl ⟨done.length, rfl, by simp, ?_, fits⟩
    intro some
    exact length_pos_of_ne_nil (by simpa using some)
  | cons unit rest ih =>
    have next : done ++ unit :: rest = (done ++ [unit]) ++ rest := by simp
    have taken : (units.drop start).take (done.length + 1) = done ++ [unit] := by
      have cut := congrArg (List.take (done.length + 1)) split
      rw [next, take_take, take_left' (by simp)] at cut
      have short : done.length + 1 ≤ limit := by
        have := congrArg List.length split
        simp at this
        omega
      rwa [min_eq_left short] at cut
    have length : pageLen units start header fixed (done.length + 1) =
        (header (done.length + 1) (start + (done.length + 1) < units.length)).assembledLen
          (fixed + textSize done + unit.text.utf8ByteSize) := by
      have size : textSize [unit] = unit.text.utf8ByteSize := by simp [textSize]
      rw [pageLen, taken, textSize_append, size, add_assoc]
    rw [fitFrom, ← length]
    split
    · rename_i long
      split
      · rename_i first
        rw [first] at long ⊢
        exact .inr ⟨by simp, long, rfl⟩
      · rename_i some
        exact .inl ⟨done.length, rfl, by simp, fun _ => by omega, fits⟩
    · rename_i small
      have size : fixed + textSize done + unit.text.utf8ByteSize = fixed + textSize (done ++ [unit]) := by
        rw [textSize_append, ← add_assoc]
        simp [textSize]
      have count : done.length + 1 = (done ++ [unit]).length := by simp
      rw [next, size, count]
      refine ih (next ▸ split) fun _ => ?_
      rw [← count]
      omega

theorem fit_spec {limit fixed : Nat} (positive : 0 < limit) (left : start < units.length) :
    (∃ taken, fit units start maxBytes header limit fixed = .ok taken ∧ 0 < taken ∧
      start + taken ≤ units.length ∧ pageLen units start header fixed taken ≤ maxBytes) ∨
    (maxBytes < pageLen units start header fixed 1 ∧ fit units start maxBytes header limit fixed =
        .error (.limitExceeded "max_bytes" maxBytes (pageLen units start header fixed 1))) := by
  have some : [] ++ (units.drop start).take limit ≠ [] := by
    rw [nil_append, ne_eq, take_eq_nil_iff, drop_eq_nil_iff]
    omega
  rcases @fitFrom_spec units start maxBytes header _ [] limit fixed rfl (by simp) with
    ⟨taken, found, few, many, fits⟩ | ⟨-, long, failed⟩
  · refine .inl ⟨taken, found, many some, ?_, fits (many some)⟩
    simp only [nil_append, length_take, length_drop] at few
    omega
  · exact .inr ⟨long, failed⟩

end Fit

end Dynodoc.Agent
