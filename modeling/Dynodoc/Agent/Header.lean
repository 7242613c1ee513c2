import Mathlib.Algebra.Order.BigOperators.Group.List
import Dynodoc.Lib.JsonText
import Dynodoc.Lib.Text

/-! The header line that starts every response to an agent, and the estimate of tokens in it,
which counts its own digits too. -/
namespace Dynodoc.Agent
open Text (isControl)
open String List

structure Dropped where
  ctrl : Nat
  hidden : Nat
  deriving DecidableEq

def Dropped.add (a b : Dropped) : Dropped := ⟨a.ctrl + b.ctrl, a.hidden + b.hidden⟩

def isHidden (c : Char) : Bool :=
  let n := c.toNat
  n = 0x200B || (0x2060 ≤ n && n ≤ 0x2064) || n = 0xFEFF || (0x202A ≤ n && n ≤ 0x202E) ||
    (0x2066 ≤ n && n ≤ 0x2069) || (0xE0000 ≤ n && n ≤ 0xE007F)

def escapeChar (extra : List Char) (c : Char) : List Char × Dropped :=
  if c = '\n' ∨ c.toNat ∈ [0x85, 0x2028, 0x2029] then (['\\', 'n'], ⟨0, 0⟩)
  else if c = '\t' then (['\\', 't'], ⟨0, 0⟩)
  else if c = '\\' then (['\\', '\\'], ⟨0, 0⟩)
  else if c = '⟦' ∨ c = '⟧' then (['\\', c], ⟨0, 0⟩)
  else if isControl c then ([], ⟨1, 0⟩)
  else if isHidden c then ([], ⟨0, 1⟩)
  else if c ∈ extra then (['\\', c], ⟨0, 0⟩)
  else ([c], ⟨0, 0⟩)

def escapeWith (input extra : String) : String × Dropped :=
  let escaped := input.toList.map (escapeChar extra.toList)
  (ofList (escaped.flatMap Prod.fst),
    escaped.foldl (fun dropped part => dropped.add part.2) ⟨0, 0⟩)

def extraQuoted : String := "\""

inductive Tool where
  | files
  | outline
  | read
  | find
  | diff
  | propose
  | submit
  | status
  | error
  deriving DecidableEq

def Tool.asStr : Tool → String
  | files => "files"
  | outline => "outline"
  | read => "read"
  | find => "find"
  | diff => "diff"
  | propose => "propose"
  | submit => "submit"
  | status => "status"
  | error => "error"

def isBareChar (c : Char) : Bool :=
  c.isAlphanum || c ∈ ['_', '.', ':', '/', '!', '+', '~', '@', '%', ',', '-']

def quote (text : String) : String := "\"" ++ (escapeWith text extraQuoted).1 ++ "\""

/-- A bare token where the text allows it. -/
def token (text : String) : String :=
  if text ≠ "" ∧ text.toList.all isBareChar then text else quote text

def marker : String := "dd/1"

structure HeaderBuilder where
  tool : Tool
  pairs : List (String × String)

namespace HeaderBuilder

def new (tool : Tool) : HeaderBuilder := ⟨tool, []⟩

variable (h : HeaderBuilder)

def kv (key value : String) : HeaderBuilder := { h with pairs := h.pairs ++ [(key, token value)] }

def kvQuoted (key value : String) : HeaderBuilder := { h with pairs := h.pairs ++ [(key, quote value)] }

def render (tok : Option Nat) : String :=
  let line := h.pairs.foldl (fun line (k, v) => line ++ " " ++ k ++ "=" ++ v)
    (marker ++ " " ++ h.tool.asStr)
  match tok with
  | some t => line ++ " ~tok=" ++ toString t
  | none => line

/-- At most so many rounds in search of a count of tokens that counts itself. -/
def fixTokFrom (bodyLen : Nat) : Nat → Nat × Nat → Nat × Nat
  | 0, state => state
  | rounds + 1, (_, tok) =>
    let total := (h.render (some tok)).utf8ByteSize + 1 + bodyLen
    let next := (total + 3) / 4
    if next = tok then (total, tok) else fixTokFrom bodyLen rounds (total, next)

/-- The length and the count of tokens of a response with a body of this length. -/
def fixTok (bodyLen : Nat) : Nat × Nat := h.fixTokFrom bodyLen 8 (0, 1)

def assembledLen (bodyLen : Nat) : Nat := (h.fixTok bodyLen).1

def assemble (body : String) : String :=
  h.render (some (h.fixTok body.utf8ByteSize).2) ++ "\n" ++ body

end HeaderBuilder

section Tokens

def digits (n : Nat) : Nat := (toString n).utf8ByteSize

theorem digits_eq (n : Nat) : digits n = (Nat.toDigits 10 n).length := by
  rw [digits, Nat.toString_eq_ofList_toDigits, JsonText.size_ofList, JsonText.size_toDigits]

theorem digits_le_iff {n k : Nat} (positive : 0 < k) : digits n ≤ k ↔ n < 10 ^ k := by
  rw [digits_eq, Nat.length_toDigits_le_iff (by decide) positive]

theorem digits_pos (n : Nat) : 0 < digits n := by
  rw [digits_eq]
  exact length_pos_of_ne_nil Nat.toDigits_ne_nil

theorem digits_mono {n m : Nat} (le : n ≤ m) : digits n ≤ digits m :=
  (digits_le_iff (digits_pos m)).2 (le.trans_lt ((digits_le_iff (digits_pos m)).1 (le_refl _)))

/-- The count of tokens that follows from the count in the header. -/
def nextTok (size tok : Nat) : Nat := (size + digits tok + 3) / 4

/-- Three rounds reach a count that stays, since the digits grow at most once after the first. -/
theorem nextTok_settles (size : Nat) :
    nextTok size (nextTok size (nextTok size (nextTok size 1))) =
      nextTok size (nextTok size (nextTok size 1)) := by
  have one : digits 1 = 1 := by decide
  generalize first : nextTok size 1 = a
  generalize second : nextTok size a = b
  generalize third : nextTok size b = c
  unfold nextTok at first second third ⊢
  have small := digits_pos a
  have up : digits a ≤ digits b := digits_mono (by omega)
  have up' : digits b ≤ digits c := digits_mono (by omega)
  have bound : a < 10 ^ digits a := (digits_le_iff small).1 (le_refl _)
  have room : digits a < 10 ^ digits a := Nat.lt_pow_self (by decide)
  have near : digits b ≤ digits a + 1 := (digits_le_iff (by omega)).2 (by omega)
  have near' : digits c ≤ digits a + 1 := (digits_le_iff (by omega)).2 (by omega)
  by_cases same : digits b = digits a
  · have stays : c = b := by omega
    rw [stays] at third ⊢
    exact third
  · have stays : digits c = digits b := by omega
    rw [stays, third]

variable (h : HeaderBuilder) (bodyLen : Nat)

/-- The length of a response but for the digits of its count of tokens. -/
def HeaderBuilder.bareLen : Nat := (h.render none).utf8ByteSize + 7 + bodyLen

variable {h bodyLen}

open HeaderBuilder

theorem render_some (tok : Nat) :
    (h.render (some tok)).utf8ByteSize + 1 + bodyLen = h.bareLen bodyLen + digits tok := by
  have label : " ~tok=".utf8ByteSize = 6 := by decide
  rw [bareLen, render, render, utf8ByteSize_append,
    utf8ByteSize_append, digits]
  omega

/-- Where some round reaches a count that stays, the rounds end with a count that counts itself. -/
theorem fixTokFrom_spec {rounds k tok total : Nat} (few : k < rounds)
    (settles : nextTok (h.bareLen bodyLen) ((nextTok (h.bareLen bodyLen))^[k] tok) =
      (nextTok (h.bareLen bodyLen))^[k] tok) :
    (h.fixTokFrom bodyLen rounds (total, tok)).1 =
      h.bareLen bodyLen + digits (h.fixTokFrom bodyLen rounds (total, tok)).2 := by
  induction rounds generalizing k tok total with
  | zero => contradiction
  | succ rounds ih =>
    unfold fixTokFrom
    dsimp only
    rw [render_some]
    split
    · rfl
    rename_i moves
    cases k with
    | zero => exact absurd settles moves
    | succ k => exact ih (k := k) (by omega) settles

theorem assemble_size (body : String) :
    (h.assemble body).utf8ByteSize = h.assembledLen body.utf8ByteSize := by
  have counted : (h.fixTok body.utf8ByteSize).1 =
      h.bareLen body.utf8ByteSize + digits (h.fixTok body.utf8ByteSize).2 :=
    fixTokFrom_spec (show 3 < 8 by decide) (nextTok_settles _)
  have feed : "\n".utf8ByteSize = 1 := by decide
  rw [assemble, utf8ByteSize_append, utf8ByteSize_append, feed, render_some,
    assembledLen, counted]

end Tokens

section Lengths

variable {h : HeaderBuilder}

theorem quote_size (l : List Char) : (quote (ofList l)).utf8ByteSize =
    ((l.flatMap fun c => (escapeChar ['"'] c).1).map Char.utf8Size).sum + 2 := by
  have mark : "\"".utf8ByteSize = 1 := by decide
  have extra : extraQuoted.toList = ['"'] := by decide
  rw [quote, escapeWith, utf8ByteSize_append, utf8ByteSize_append, mark, JsonText.size_ofList,
    JsonText.size, toList_ofList, flatMap_map, extra]
  omega

theorem line_size (pairs : List (String × String)) (start : String) :
    (pairs.foldl (fun line (k, v) => line ++ " " ++ k ++ "=" ++ v) start).utf8ByteSize =
      start.utf8ByteSize + (pairs.map fun p => p.1.utf8ByteSize + p.2.utf8ByteSize + 2).sum := by
  have blank : " ".utf8ByteSize = 1 := by decide
  have equals : "=".utf8ByteSize = 1 := by decide
  induction pairs generalizing start with
  | nil => rfl
  | cons pair pairs ih =>
    rw [foldl_cons, ih, map_cons, sum_cons]
    simp only [utf8ByteSize_append]
    omega

theorem value_lt_assemble {pair : String × String} (shown : pair ∈ h.pairs) (body : String) :
    pair.2.utf8ByteSize < (h.assemble body).utf8ByteSize := by
  have part := single_le_sum (fun n _ => Nat.zero_le n) _
    (mem_map_of_mem (f := fun p => p.1.utf8ByteSize + p.2.utf8ByteSize + 2) shown)
  rw [HeaderBuilder.assemble, HeaderBuilder.render]
  rw [utf8ByteSize_append, utf8ByteSize_append, utf8ByteSize_append,
    utf8ByteSize_append, line_size]
  omega

end Lengths

end Dynodoc.Agent
