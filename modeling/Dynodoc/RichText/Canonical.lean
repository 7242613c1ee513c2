import Dynodoc.RichText.Content
import Dynodoc.Lib.Text

/-! The canonical text of a JSON value determines the value. -/
namespace Dynodoc
open Std (ExtTreeMap ExtTreeSet)
open Text (Delimited intercalate_inj)
open List Json

def isNumeric (c : Char) : Bool := c.isDigit || c ∈ ['-', '+', '.', 'e', 'E']

/-- The texts of numbers and strings as JSON has them: a number is made of its own characters and
a string tells where it ends. -/
structure Externals.Readable (env : Externals) : Prop where
  numbers : Function.Injective env.numberText
  numeric : ∀ n, env.numberText n ≠ "" ∧ ∀ c ∈ (env.numberText n).toList, isNumeric c
  quoted : ∀ s, (env.stringText s).toList.head? = some '"'
  strings : ∀ s t x y, (env.stringText s).toList ++ x = (env.stringText t).toList ++ y → s = t ∧ x = y

section Canonical

variable {env : Externals}

/-- What may come after a number. -/
def StopsNumber (l : List Char) : Prop := ∀ c ∈ l.head?, isNumeric c = false

def canonicalText (env : Externals) (v : Value) : List Char := (canonicalJson env v).toList

def entryText (env : Externals) (entry : String × Value) : List Char :=
  (env.stringText entry.1).toList ++ ':' :: canonicalText env entry.2

def entries (ks : ExtTreeSet String) (f : { key // key ∈ ks } → Value) : List (String × Value) :=
  ks.toList.attach.map fun k => (k.1, f ⟨k.1, key_mem k⟩)

theorem canonicalText_arr (n : Nat) (items : Fin n → Value) : canonicalText env (.arr n items) =
    '[' :: ([','].intercalate ((ofFn items).map (canonicalText env)) ++ [']']) := by
  rw [canonicalText, canonicalJson, canonical, String.toList_append, String.toList_append,
    String.toList_intercalate,
    map_ofFn, map_ofFn]
  rfl

theorem canonicalText_obj (ks : ExtTreeSet String) (f : { key // key ∈ ks } → Value) :
    canonicalText env (.obj ks f) =
      '\x7b' :: ([','].intercalate ((entries ks f).map (entryText env)) ++ ['\x7d']) := by
  rw [canonicalText, canonicalJson, canonical, String.toList_append, String.toList_append,
    String.toList_intercalate,
    entries, map_map, map_map]
  have same : (String.toList ∘ fun k : { key // key ∈ ks.toList } => env.stringText k.1 ++ ":" ++
      (f ⟨k.1, key_mem k⟩).canonical env.numberText env.stringText) =
      entryText env ∘ fun k => (k.1, f ⟨k.1, key_mem k⟩) := by
    funext k
    simp [entryText, canonicalText, canonicalJson]
  rw [same]
  rfl

/-- The kind of a value, and the kind that a first character shows. -/
def kind : Value → Nat
  | .null => 0
  | .bool b => 6 + b.toNat
  | .num _ => 2
  | .str _ => 3
  | .arr .. => 4
  | .obj .. => 5

def kindShown (c : Char) : Nat :=
  if isNumeric c then 2
  else if c = 'n' then 0
  else if c = 't' then 7
  else if c = 'f' then 6
  else if c = '"' then 3
  else if c = '[' then 4
  else if c = '\x7b' then 5
  else 8

theorem canonicalText_null : canonicalText env .null = 'n' :: "ull".toList := by
  rw [canonicalText, canonicalJson, canonical]
  rfl

theorem canonicalText_true : canonicalText env (.bool true) = 't' :: "rue".toList := by
  rw [canonicalText, canonicalJson, canonical]
  rfl

theorem canonicalText_false : canonicalText env (.bool false) = 'f' :: "alse".toList := by
  rw [canonicalText, canonicalJson, canonical]
  rfl

theorem canonicalText_num (n : Number) : canonicalText env (.num n) = (env.numberText n).toList := by
  rw [canonicalText, canonicalJson, canonical]

theorem canonicalText_str (s : String) : canonicalText env (.str s) = (env.stringText s).toList := by
  rw [canonicalText, canonicalJson, canonical]

theorem canonicalText_opens (readable : env.Readable) (v : Value) :
    ∃ c rest, canonicalText env v = c :: rest ∧ kindShown c = kind v := by
  cases v with
  | null => exact ⟨_, _, canonicalText_null, rfl⟩
  | bool b =>
    cases b with
    | true => exact ⟨_, _, canonicalText_true, rfl⟩
    | false => exact ⟨_, _, canonicalText_false, rfl⟩
  | num n =>
    rw [canonicalText_num]
    obtain ⟨some, numeric⟩ := readable.numeric n
    cases text : (env.numberText n).toList with
    | nil => exact absurd (String.toList_eq_nil_iff.1 text) some
    | cons c rest =>
      refine ⟨c, rest, rfl, ?_⟩
      rw [kindShown, if_pos (numeric c (by simp [text]))]
      rfl
  | str s =>
    rw [canonicalText_str]
    have quoted := readable.quoted s
    cases text : (env.stringText s).toList with
    | nil => simp [text] at quoted
    | cons c rest =>
      rw [text] at quoted
      cases quoted
      exact ⟨_, rest, rfl, rfl⟩
  | arr n items => exact ⟨_, _, canonicalText_arr n items, rfl⟩
  | obj ks f => exact ⟨_, _, canonicalText_obj ks f, rfl⟩

variable {x y : List Char}

theorem kind_of_same (readable : env.Readable) {v w : Value}
    (same : canonicalText env v ++ x = canonicalText env w ++ y) : kind v = kind w := by
  obtain ⟨c, rest, text, shown⟩ := canonicalText_opens readable v
  obtain ⟨d, rest', text', shown'⟩ := canonicalText_opens readable w
  rw [text, text'] at same
  rw [← shown, ← shown', (cons.inj same).1]

theorem number_delimited (readable : env.Readable) {n m : Number} (first : StopsNumber x)
    (second : StopsNumber y) (same : (env.numberText n).toList ++ x = (env.numberText m).toList ++ y) :
    n = m ∧ x = y := by
  have takes {n : Number} {x : List Char} (stops : StopsNumber x) :
      ((env.numberText n).toList ++ x).takeWhile isNumeric = (env.numberText n).toList := by
    rw [takeWhile_append_of_pos (readable.numeric n).2]
    cases x with
    | nil => simp
    | cons c x => simp [stops c rfl]
  have texts : (env.numberText n).toList = (env.numberText m).toList := by
    rw [← takes first, same, takes second]
  rw [texts] at same
  exact ⟨readable.numbers (String.toList_inj.1 texts), append_cancel_left same⟩

theorem not_opened_by (readable : env.Readable) {c : Char} (other : kindShown c = 8) (v : Value)
    (x l : List Char) : c :: x ≠ canonicalText env v ++ l := by
  intro same
  obtain ⟨d, rest, text, shown⟩ := canonicalText_opens readable v
  rw [text] at same
  rw [← (cons.inj same).1] at shown
  have bound : kind v < 8 := by
    cases v with
    | bool b => cases b <;> decide
    | _ => simp [kind]
  omega

theorem stops_mark (c : Char) (other : isNumeric c = false) (l : List Char) : StopsNumber (c :: l) := by
  rintro _ ⟨⟩
  exact other

variable (readable : env.Readable)

include readable

theorem array_delimited {n m : Nat} {items : Fin n → Value} {others : Fin m → Value}
    (delimited : ∀ i, Delimited StopsNumber (canonicalText env) (items i))
    (same : canonicalText env (.arr n items) ++ x = canonicalText env (.arr m others) ++ y) :
    arr n items = .arr m others ∧ x = y := by
  rw [canonicalText_arr, canonicalText_arr] at same
  simp only [cons_append, append_assoc, cons.injEq, true_and] at same
  have each : ∀ v ∈ ofFn items, Delimited StopsNumber (canonicalText env) v := by
    intro v mem
    obtain ⟨i, rfl⟩ := (mem_ofFn' items v).1 mem
    exact delimited i
  obtain ⟨lists, rest⟩ := intercalate_inj (stops_mark _ (by decide)) (stops_mark _ (by decide)) (by decide)
    each (fun b l => ⟨not_opened_by readable rfl b x l, not_opened_by readable rfl b y l⟩) same
  have lengths : n = m := by simpa using congrArg length lists
  subst lengths
  exact ⟨by rw [ofFn_injective lists], rest⟩

theorem entry_delimited {entry : String × Value}
    (delimited : Delimited StopsNumber (canonicalText env) entry.2) :
    Delimited StopsNumber (entryText env) entry := by
  rintro ⟨key, v⟩ x y first second same
  rw [entryText, entryText, append_assoc, append_assoc] at same
  obtain ⟨keys, values⟩ := readable.strings _ _ _ _ same
  obtain ⟨rfl, rfl⟩ := delimited v x y first second (cons.inj values).2
  exact ⟨Prod.ext keys rfl, rfl⟩

theorem object_delimited {ks ls : ExtTreeSet String}
    {f : { key // key ∈ ks } → Value} {g : { key // key ∈ ls } → Value}
    (delimited : ∀ k, Delimited StopsNumber (canonicalText env) (f k))
    (same : canonicalText env (.obj ks f) ++ x = canonicalText env (.obj ls g) ++ y) :
    obj ks f = .obj ls g ∧ x = y := by
  rw [canonicalText_obj, canonicalText_obj] at same
  simp only [cons_append, append_assoc, nil_append, cons.injEq, true_and] at same
  have each : ∀ entry ∈ entries ks f, Delimited StopsNumber (entryText env) entry := by
    intro entry mem
    obtain ⟨k, -, rfl⟩ := mem_map.1 mem
    exact entry_delimited readable (delimited _)
  have opened (b : String × Value) (l z : List Char) : '\x7d' :: z ≠ entryText env b ++ l := by
    intro closed
    have quoted := readable.quoted b.1
    cases text : (env.stringText b.1).toList with
    | nil => simp [text] at quoted
    | cons c rest =>
      rw [entryText, text] at closed
      rw [text, ← (cons.inj closed).1] at quoted
      simp at quoted
  obtain ⟨lists, rest⟩ := intercalate_inj (stops_mark _ (by decide)) (stops_mark _ (by decide)) (by decide)
    each (fun b l => ⟨opened b l x, opened b l y⟩) same
  have keys : ks = ls := by
    have firsts := congrArg (map Prod.fst) lists
    simp only [entries, map_map] at firsts
    refine ExtTreeSet.toList_inj.1 ?_
    rw [← attach_map_subtype_val ks.toList, ← attach_map_subtype_val ls.toList]
    exact firsts
  subst keys
  refine ⟨congrArg _ (funext fun k => ?_), rest⟩
  have values := (map_inj_left.1 lists) ⟨k.1, ExtTreeSet.mem_toList.2 k.2⟩ (mem_attach _ _)
  exact (Prod.mk.inj values).2

theorem canonical_delimited (v : Value) :
    Delimited StopsNumber (canonicalText env) v := by
  -- Texts of two kinds differ in their first character; for the rest, each kind by itself.
  induction v with
  | null =>
    intro w x y _ _ same
    have kinds := kind_of_same readable same
    cases w with
    | null => exact ⟨rfl, append_cancel_left same⟩
    | _ => simp only [kind] at kinds; omega
  | bool b =>
    intro w x y _ _ same
    have kinds := kind_of_same readable same
    cases w with
    | bool b' =>
      have bools : b = b' := by
        cases b <;> cases b' <;> simp [kind] at kinds ⊢
      subst bools
      exact ⟨rfl, append_cancel_left same⟩
    | _ => simp only [kind] at kinds; omega
  | num n =>
    intro w x y first second same
    have kinds := kind_of_same readable same
    cases w with
    | num m =>
      obtain ⟨rfl, rest⟩ := number_delimited readable first second same
      exact ⟨rfl, rest⟩
    | _ => simp only [kind] at kinds; omega
  | str s =>
    intro w x y _ _ same
    have kinds := kind_of_same readable same
    cases w with
    | str t =>
      obtain ⟨rfl, rest⟩ := readable.strings _ _ _ _ same
      exact ⟨rfl, rest⟩
    | _ => simp only [kind] at kinds; omega
  | arr n items ih =>
    intro w x y _ _ same
    have kinds := kind_of_same readable same
    cases w with
    | arr m others => exact array_delimited readable ih same
    | _ => simp only [kind] at kinds; omega
  | obj ks f ih =>
    intro w x y _ _ same
    have kinds := kind_of_same readable same
    cases w with
    | obj ls g => exact object_delimited readable ih same
    | _ => simp only [kind] at kinds; omega

theorem canonicalJson_injective : Function.Injective (canonicalJson env) := by
  intro v w same
  have stops : StopsNumber [] := by simp [StopsNumber]
  have texts : canonicalText env v ++ [] = canonicalText env w ++ [] := by
    rw [canonicalText, same, canonicalText]
  exact (canonical_delimited readable v w [] [] stops stops texts).1

end Canonical

end Dynodoc
