import Mathlib.Data.List.Infix

/-! Texts as lists of characters: where a pattern is found, and what is left and right of it. -/
namespace Text
open List Nat

/-- A character of the Unicode category of control characters. -/
def isControl (c : Char) : Bool := c.toNat < 32 || (127 ≤ c.toNat && c.toNat < 160)

/-- A character with the Unicode property of white space, as `trim` removes it at either end. -/
def isWhitespace (c : Char) : Bool :=
  let n := c.toNat
  (9 ≤ n && n ≤ 13) || (0x2000 ≤ n && n ≤ 0x200a) ||
    n ∈ [0x20, 0x85, 0xa0, 0x1680, 0x2028, 0x2029, 0x202f, 0x205f, 0x3000]

variable {α : Type}

variable {separator : α}

section Delimited

variable {β : Type} {f : β → List α} {stops : List α → Prop} {sep close : α} {items others : List β}
  {x y : List α}

/-- A text that can be told apart from others whatever comes after it, as long as that stops it. -/
def Delimited (stops : List α → Prop) (f : β → List α) (a : β) : Prop :=
  ∀ b x y, stops x → stops y → f a ++ x = f b ++ y → a = b ∧ x = y

variable (afterSep : ∀ l, stops (sep :: l)) (afterClose : ∀ l, stops (close :: l))
include afterSep afterClose

theorem stops_separated (items : List β) (x : List α) :
    stops ((items.flatMap fun a => sep :: f a) ++ close :: x) := by
  cases items with
  | nil => exact afterClose x
  | cons a items => exact afterSep _

theorem separated_inj (differ : sep ≠ close) (delimited : ∀ a ∈ items, Delimited stops f a)
    (same : (items.flatMap fun a => sep :: f a) ++ close :: x =
      (others.flatMap fun a => sep :: f a) ++ close :: y) : items = others ∧ x = y := by
  induction items generalizing others with
  | nil =>
    cases others with
    | nil => exact ⟨rfl, (List.cons.inj same).2⟩
    | cons b others => exact absurd (List.cons.inj same).1.symm differ
  | cons a items ih =>
    cases others with
    | nil => exact absurd (List.cons.inj same).1 differ
    | cons b others =>
      simp only [flatMap_cons, cons_append, append_assoc, List.cons.injEq, true_and] at same
      obtain ⟨rfl, rests⟩ := delimited a (by simp) b _ _ (stops_separated afterSep afterClose _ _)
        (stops_separated afterSep afterClose _ _) same
      obtain ⟨rfl, rfl⟩ := ih (fun a mem => delimited a (by simp [mem])) rests
      exact ⟨rfl, rfl⟩

/-- A sequence of delimited texts between separators, up to a closing mark, is delimited. -/
theorem intercalate_inj (differ : sep ≠ close) (delimited : ∀ a ∈ items, Delimited stops f a)
    (opens : ∀ b l, close :: x ≠ f b ++ l ∧ close :: y ≠ f b ++ l)
    (same : [sep].intercalate (items.map f) ++ close :: x =
      [sep].intercalate (others.map f) ++ close :: y) :
    items = others ∧ x = y := by
  have joined (first : β) (rest : List β) : [sep].intercalate ((first :: rest).map f) =
      f first ++ rest.flatMap fun a => sep :: f a := by
    induction rest generalizing first with
    | nil => simp
    | cons next rest ih =>
      rw [map_cons, map_cons, intercalate_cons_cons, ← map_cons, ih]
      simp
  cases items with
  | nil =>
    cases others with
    | nil => exact ⟨rfl, (List.cons.inj same).2⟩
    | cons b others =>
      rw [joined, append_assoc] at same
      exact absurd same (opens b _).1
  | cons a items =>
    cases others with
    | nil =>
      rw [joined, append_assoc] at same
      exact absurd same.symm (opens a _).2
    | cons b others =>
      rw [joined, joined] at same
      exact separated_inj afterSep afterClose differ delimited (by simpa using same)

end Delimited

variable [DecidableEq α]

def rfind (pattern : List α) : List α → Option Nat
  | [] => if pattern = [] then some 0 else none
  | a :: l =>
    match rfind pattern l with
    | some i => some (i + 1)
    | none => if pattern.isPrefixOf (a :: l) then some 0 else none

variable {pattern l : List α}

theorem rfind_eq_none : rfind pattern l = none ↔ ¬ pattern <:+: l := by
  induction l with
  | nil =>
    rw [rfind]
    split <;> simp_all
  | cons a l ih =>
    rw [rfind, infix_cons_iff]
    split
    · rename_i found
      have inside : pattern <:+: l := by
        by_contra absent
        rw [ih.2 absent] at found
        contradiction
      simp [inside]
    · rename_i absent
      have outside := ih.1 absent
      split
      · rename_i here
        have begins := isPrefixOf_iff_prefix.1 here
        simp [begins]
      · rename_i here
        simp [outside, mt isPrefixOf_iff_prefix.2 here]

/-- What comes before the last pattern, and that none begins after it. -/
theorem rfind_eq_some {i : Nat} (found : rfind pattern l = some i) :
    pattern <+: l.drop i ∧ ∀ a rest, l.drop i = a :: rest → ¬ pattern <:+: rest := by
  induction l generalizing i with
  | nil =>
    rw [rfind] at found
    split at found
    · rename_i empty
      cases found
      simp [empty]
    · contradiction
  | cons a l ih =>
    rw [rfind] at found
    split at found
    · rename_i j inside
      cases found
      exact ih inside
    · rename_i absent
      split at found
      · rename_i here
        cases found
        have begins := isPrefixOf_iff_prefix.1 here
        refine ⟨begins, fun b rest same => ?_⟩
        cases same
        exact rfind_eq_none.1 absent
      · contradiction

theorem rfind_append {pattern front rest : List α} {a : α} (here : pattern <+: a :: rest)
    (last : ¬ pattern <:+: rest) : rfind pattern (front ++ a :: rest) = some front.length := by
  induction front with
  | nil =>
    rw [nil_append, rfind, rfind_eq_none.2 last]
    have begins := isPrefixOf_iff_prefix.2 here
    exact if_pos begins
  | cons b front ih => rw [cons_append, rfind, ih, length_cons]

def splitOnce (separator : α) : List α → Option (List α × List α)
  | [] => none
  | a :: l =>
    if a = separator then some ([], l)
    else (splitOnce separator l).map fun (front, back) => (a :: front, back)

theorem splitOnce_eq_some {l front back : List α} :
    splitOnce separator l = some (front, back) ↔ l = front ++ separator :: back ∧ separator ∉ front := by
  induction l generalizing front with
  | nil => simp [splitOnce]
  | cons a l ih =>
    rw [splitOnce]
    split
    · rename_i same
      cases front with
      | nil => simp [same]
      | cons b front => simp_all
    · rename_i other
      rw [Option.map_eq_some_iff]
      cases front with
      | nil => simp [other]
      | cons b front =>
        grind

theorem notMem_of_mem_splitOn {l part : List α} (mem : part ∈ l.splitOn separator) :
    separator ∉ part := by
  induction l generalizing part with
  | nil => simp_all
  | cons a l ih =>
    rw [splitOn_cons_eq_if_modifyHead] at mem
    generalize l.splitOn separator = parts at mem ih
    cases parts <;> grind [modifyHead]

theorem head_toDigits {base n : Nat} (large : 1 < base) (positive : 0 < n) :
    (Nat.toDigits base n).head? ≠ some '0' := by
  induction n using Nat.strong_induction_on with
  | _ n ih =>
    by_cases small : n < base
    · rw [Nat.toDigits_of_lt_base small]
      simp
      omega
    · rw [toDigits_of_base_le large (by omega), head?_append_of_ne_nil _ toDigits_ne_nil]
      exact ih (n / base) (div_lt_self positive large) (div_pos (by omega) (by omega))

end Text
