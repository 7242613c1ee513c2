import Dynodoc.Lib.OrderedMap
import Mathlib.Data.List.Count

/-! Items that are kept while a quota for their key lasts, and what is put in for the quotas that
are left over. -/
namespace Quota
open Std (ExtTreeMap TransOrd LawfulEqOrd)
open List Std.ExtTreeMap

variable {α κ : Type} [DecidableEq κ] (key : α → κ)

def tally (l : List α) (k : κ) : Nat := l.countP fun a => key a = k

section Tally

variable {key}

theorem tally_cons (a : α) (l : List α) (k : κ) :
    tally key (a :: l) k = tally key l k + if key a = k then 1 else 0 := by
  simp [tally, countP_cons]

theorem tally_append (l m : List α) (k : κ) : tally key (l ++ m) k = tally key l k + tally key m k := by
  simp [tally]

theorem tally_replicate (n : Nat) (a : α) (k : κ) :
    tally key (List.replicate n a) k = if key a = k then n else 0 := by
  simp [tally, countP_replicate]

end Tally

variable [Ord κ] [TransOrd κ] [LawfulEqOrd κ]

/-- An item is kept while its key has some quota left, of which it uses one. -/
def take (acc : List α × ExtTreeMap κ Int) (a : α) : List α × ExtTreeMap κ Int :=
  match acc.2[key a]? with
  | some n => if 0 < n then (acc.1 ++ [a], acc.2.insert (key a) (n - 1)) else acc
  | none => acc

/-- As many items as the quota of each key, keys in order. -/
def refill (item : κ → Option α) (quotas : ExtTreeMap κ Int) : List α :=
  quotas.toList.flatMap fun (k, n) => (item k).toList.flatMap (List.replicate n.toNat)

def quotaOf (quotas : ExtTreeMap κ Int) (k : κ) : Nat := (quotas[k]?.getD 0).toNat

variable {key} {quotas : ExtTreeMap κ Int} {l : List α}

/-- What a walk over a list keeps is a part of it in its order: of each key as many as the quota
allows. -/
structure Taken (key : α → κ) (quotas : ExtTreeMap κ Int) (l kept : List α) (left : ExtTreeMap κ Int) :
    Prop where
  part : kept.Sublist l
  most : ∀ k, tally key kept k = min (tally key l k) (quotaOf quotas k)
  left : ∀ k, left[k]? = quotas[k]?.map fun n => n - (tally key kept k : Int)

variable (key) in
theorem foldl_take (l kept : List α) (quotas : ExtTreeMap κ Int) :
    ∃ more, (l.foldl (take key) (kept, quotas)).1 = kept ++ more ∧
      Taken key quotas l more (l.foldl (take key) (kept, quotas)).2 := by
  induction l generalizing kept quotas with
  | nil => exact ⟨[], by simp, .slnil, by simp [tally], by simp [tally]⟩
  | cons a l ih =>
    rw [foldl_cons]
    by_cases more : ∃ n, quotas[key a]? = some n ∧ 0 < n
    · obtain ⟨n, known, positive⟩ := more
      have step : take key (kept, quotas) a = (kept ++ [a], quotas.insert (key a) (n - 1)) := by
        simp [take, known, positive]
      rw [step]
      obtain ⟨more, result, part, most, left⟩ := ih (kept ++ [a]) (quotas.insert (key a) (n - 1))
      refine ⟨a :: more, by simp [result], part.cons_cons a, fun k => ?_, fun k => ?_⟩
      · have here := most k
        rw [quotaOf, OrderedMap.getElem?_insert] at here
        rw [tally_cons, tally_cons, here, quotaOf]
        by_cases same : key a = k
        · subst same
          simp only [if_pos, known, Option.getD_some]
          omega
        · simp [same, Ne.symm same]
      · rw [left k, OrderedMap.getElem?_insert, tally_cons]
        by_cases same : key a = k
        · subst same
          simp only [if_pos, known, Option.map_some]
          congr 1
          omega
        · simp [same, Ne.symm same]
    · have step : take key (kept, quotas) a = (kept, quotas) := by
        unfold take
        split
        · rename_i n known
          rw [if_neg fun positive => more ⟨n, known, positive⟩]
        · rfl
      rw [step]
      obtain ⟨rest, result, part, most, left⟩ := ih kept quotas
      refine ⟨rest, result, part.cons a, fun k => ?_, left⟩
      rw [most k, tally_cons]
      by_cases same : key a = k
      · subst same
        have none_left : quotaOf quotas (key a) = 0 := by
          unfold quotaOf
          cases known : quotas[key a]? with
          | none => rfl
          | some n =>
            have := not_lt.1 fun positive => more ⟨n, known, positive⟩
            simp only [Option.getD_some]
            omega
        simp [none_left]
      · simp [same]

theorem tally_refill {item : κ → Option α}
    (own : ∀ k n, quotas[k]? = some n → ∃ a, item k = some a ∧ key a = k) (k : κ) :
    tally key (refill item quotas) k = quotaOf quotas k := by
  have others (l : List (κ × Int)) (known : ∀ entry ∈ l, quotas[entry.1]? = some entry.2)
      (absent : ∀ entry ∈ l, entry.1 ≠ k) :
      tally key (l.flatMap fun (k, n) => (item k).toList.flatMap (List.replicate n.toNat)) k = 0 := by
    induction l with
    | nil => rfl
    | cons entry l ih =>
      obtain ⟨a, isItem, same⟩ := own entry.1 entry.2 (known entry (by simp))
      rw [flatMap_cons, tally_append, ih (fun e mem => known e (by simp [mem]))
        fun e mem => absent e (by simp [mem])]
      simp [isItem, tally_replicate, same, absent entry (by simp)]
  have known : ∀ entry ∈ quotas.toList, quotas[entry.1]? = some entry.2 := fun entry mem =>
    mem_toList_iff_getElem?_eq_some.1 mem
  have distinct : (quotas.toList.map Prod.fst).Nodup := by
    rw [map_fst_toList_eq_keys]
    exact nodup_keys
  unfold refill quotaOf
  cases found : quotas[k]? with
  | none =>
    refine others _ known fun entry mem same => ?_
    have := known entry mem
    rw [same, found] at this
    contradiction
  | some n =>
    obtain ⟨front, back, split⟩ := append_of_mem
      (mem_toList_iff_getElem?_eq_some.2 found : (k, n) ∈ quotas.toList)
    rw [split, map_append, map_cons, nodup_append, nodup_cons] at distinct
    rw [split] at known ⊢
    obtain ⟨-, ⟨notBack, -⟩, apart⟩ := distinct
    have front_other : ∀ entry ∈ front, entry.1 ≠ k := fun entry mem same =>
      apart entry.1 (mem_map_of_mem mem) k (by simp) same
    have back_other : ∀ entry ∈ back, entry.1 ≠ k := fun entry mem same =>
      notBack (mem_map.2 ⟨entry, mem, same⟩)
    obtain ⟨a, isItem, same⟩ := own k n found
    rw [flatMap_append, flatMap_cons, tally_append, tally_append,
      others front (fun e mem => known e (by simp [mem])) front_other,
      others back (fun e mem => known e (by simp [mem])) back_other]
    simp [isItem, tally_replicate, same]

end Quota
