import Dynodoc.Lib.Loop
import Mathlib.Data.List.Sort

/-! A stable sort by a key that is computed once for each element and may panic.
Lists of fewer than two elements are returned as they are, without computing a key. -/
namespace Loop
open List Settles

variable {α κ : Type}
variable {key : α → Run κ} {le : κ → κ → Bool}

def sortByCachedKey (le : κ → κ → Bool) (key : α → Run κ) (l : List α) : Run (List α) :=
  if l.length < 2 then .ok l
  else do
    let keyed ← l.mapM fun a => (key a).map fun k => (k, a)
    .ok ((keyed.insertionSort fun x y => le x.1 y.1).map Prod.snd)

theorem mapM_keyed {l : List α} {keyed : List (κ × α)}
    (computed : l.mapM (fun a => (key a).map fun k => (k, a)) = .ok keyed) :
    keyed.map Prod.snd = l := by
  induction l generalizing keyed with
  | nil =>
    cases computed
    rfl
  | cons a l ih =>
    rw [mapM_cons, bind_eq_ok] at computed
    obtain ⟨e, first, rest⟩ := computed
    obtain ⟨k, found, rfl⟩ := map_eq_ok.1 first
    obtain ⟨tail, others, same⟩ := bind_eq_ok.1 rest
    cases same
    simp [ih others]

variable {l sorted : List α}

theorem sortByCachedKey_perm
    (ordered : sortByCachedKey le key l = .ok sorted) : sorted.Perm l := by
  simp only [sortByCachedKey] at ordered
  split at ordered
  · cases ordered
    exact List.Perm.refl _
  · obtain ⟨keyed, computed, same⟩ := bind_eq_ok.1 ordered
    cases same
    have perm := (perm_insertionSort (fun x y : κ × α => le x.1 y.1) keyed).map Prod.snd
    rwa [mapM_keyed computed] at perm

theorem Settles.sortByCachedKey (l : List α) (total : ∀ a, key a ≠ .error .outOfFuel) :
    Settles fun _ => Loop.sortByCachedKey le key l := by
  simp only [Loop.sortByCachedKey]
  split
  · exact ok l
  · apply bind
    · apply mapM
      intro a _
      exact (const (total a)).map _
    · intro keyed _
      exact ok _

end Loop
