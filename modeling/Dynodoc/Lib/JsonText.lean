import Mathlib.Algebra.BigOperators.Group.List.Basic
import Mathlib.Data.Nat.Digits.Defs

/-! Compact JSON texts as lists of characters, and how many bytes they have in UTF-8. -/
namespace JsonText
open List Nat

variable {text : List Char}

def size (text : List Char) : Nat := (text.map Char.utf8Size).sum

@[simp] theorem size_nil : size [] = 0 := rfl

@[simp] theorem size_cons (c : Char) (text : List Char) : size (c :: text) = c.utf8Size + size text := by
  simp [size]

@[simp] theorem size_append (text more : List Char) : size (text ++ more) = size text + size more := by
  simp [size]

theorem size_ofList (text : List Char) : (String.ofList text).utf8ByteSize = size text := by
  induction text with
  | nil => rfl
  | cons c text ih =>
    rw [String.ofList_cons, String.utf8ByteSize_append, String.utf8ByteSize_singleton, ih, size_cons]

theorem size_of_narrow (narrow : ∀ c ∈ text, c.utf8Size = 1) : size text = text.length := by
  rw [size, map_congr_left narrow, map_const', sum_replicate_nat, mul_one]

theorem size_toDigits (n : Nat) : size (toDigits 10 n) = (toDigits 10 n).length := by
  refine size_of_narrow fun c mem => ?_
  have digit := isDigit_of_mem_toDigits (by decide) (by decide) mem
  rw [Char.utf8Size_eq_one_iff]
  simp only [Char.isDigit, Bool.and_eq_true, decide_eq_true_eq] at digit
  exact UInt32.le_trans digit.2 (by decide)

/-- A character as it stands in a string: quotes, backslashes and the first 32 characters are
escaped. -/
def escaped (c : Char) : List Char :=
  if c = '"' then ['\\', '"']
  else if c = '\\' then ['\\', '\\']
  else if c = '\n' then ['\\', 'n']
  else if c = '\r' then ['\\', 'r']
  else if c = '\t' then ['\\', 't']
  else if c.toNat = 8 then ['\\', 'b']
  else if c.toNat = 12 then ['\\', 'f']
  else if c.toNat < 32 then
    ['\\', 'u', '0', '0', (c.toNat / 16).digitChar, (c.toNat % 16).digitChar]
  else [c]

def string (text : List Char) : List Char := '"' :: text.flatMap escaped ++ ['"']

/-- A character that stands for itself in a string. -/
def Plain (c : Char) : Prop := escaped c = [c]

instance plainDecidable (c : Char) : Decidable (Plain c) := inferInstanceAs (Decidable (escaped c = [c]))

theorem size_string (plain : ∀ c ∈ text, Plain c) : size (string text) = size text + 2 := by
  have same : text.flatMap escaped = text := by
    induction text with
    | nil => rfl
    | cons c text ih =>
      have first : escaped c = [c] := plain c (by simp)
      rw [flatMap_cons, first, ih fun d mem => plain d (by simp [mem])]
      rfl
  have mark : '"'.utf8Size = 1 := by decide
  rw [string, same, size_append, size_cons, size_cons, size_nil]
  omega

theorem size_escaped_le {c : Char} (visible : 32 ≤ c.toNat) : size (escaped c) ≤ 2 * c.utf8Size := by
  have pos := Char.utf8Size_pos c
  have marks : '\\'.utf8Size = 1 ∧ '"'.utf8Size = 1 := by decide
  have other (d : Char) (low : d.toNat < 32) : c ≠ d := by
    rintro rfl
    omega
  unfold escaped
  rw [if_neg (other '\n' (by decide)), if_neg (other '\r' (by decide)), if_neg (other '\t' (by decide)),
    if_neg (show ¬ c.toNat = 8 by omega), if_neg (show ¬ c.toNat = 12 by omega),
    if_neg (show ¬ c.toNat < 32 by omega)]
  split
  · simp only [size_cons, size_nil, marks]
    omega
  split
  · simp only [size_cons, size_nil, marks]
    omega
  · simp only [size_cons, size_nil]
    omega

/-- Without control characters a text at most doubles. -/
theorem size_string_le (visible : ∀ c ∈ text, 32 ≤ c.toNat) : size (string text) ≤ 2 * size text + 2 := by
  have doubled : size (text.flatMap escaped) ≤ 2 * size text := by
    induction text with
    | nil => simp
    | cons c text ih =>
      have first := size_escaped_le (visible c (by simp))
      have rest := ih fun d mem => visible d (by simp [mem])
      rw [flatMap_cons, size_append, size_cons]
      omega
  have mark : '"'.utf8Size = 1 := by decide
  rw [string, size_append, size_cons, size_cons, size_nil]
  omega

def separated : List (List Char) → List Char
  | [] => []
  | [item] => item
  | item :: next :: rest => item ++ ',' :: separated (next :: rest)

theorem size_separated : ∀ items : List (List Char),
    size (separated items) = (items.map size).sum + (items.length - 1)
  | [] => rfl
  | [item] => by simp [separated]
  | item :: next :: rest => by
    have comma : ','.utf8Size = 1 := by decide
    rw [separated, size_append, size_cons, comma, size_separated (next :: rest)]
    simp only [map_cons, sum_cons, length_cons]
    omega

def member (m : String × List Char) : List Char := string m.1.toList ++ ':' :: m.2

def object (members : List (String × List Char)) : List Char :=
  '\x7b' :: separated (members.map member) ++ ['\x7d']

def array (items : List (List Char)) : List Char := '[' :: separated items ++ [']']

theorem size_object (members : List (String × List Char)) : size (object members) =
    (members.map fun m => size (string m.1.toList) + 1 + size m.2).sum + (members.length - 1) + 2 := by
  have marks : '\x7b'.utf8Size = 1 ∧ '\x7d'.utf8Size = 1 ∧ ':'.utf8Size = 1 := by decide
  have each : size ∘ member = fun m => size (string m.1.toList) + 1 + size m.2 := by
    funext m
    rw [Function.comp_apply, member, size_append, size_cons, marks.2.2, add_assoc]
  rw [object, size_append, size_cons, size_cons, size_nil, size_separated, map_map, each, length_map]
  omega

theorem size_array (items : List (List Char)) :
    size (array items) = (items.map size).sum + (items.length - 1) + 2 := by
  have marks : '['.utf8Size = 1 ∧ ']'.utf8Size = 1 := by decide
  rw [array, size_append, size_cons, size_cons, size_nil, size_separated]
  omega

def number (n : Nat) : List Char := (toString n).toList

def bool (b : Bool) : List Char := (toString b).toList

theorem size_number {n k : Nat} (small : n < 10 ^ k) (positive : 0 < k) : size (number n) ≤ k := by
  rw [number, toString_eq_ofList_toDigits, String.toList_ofList, size_toDigits]
  exact (length_toDigits_le_iff (by decide) positive).2 small

end JsonText
