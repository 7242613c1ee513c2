import Mathlib.Data.List.Sort
import Mathlib.Data.List.Dedup
import Mathlib.Data.List.Pairwise
import Dynodoc.Lib.OrderedMap

/-! Sorting by a comparison of the elements. -/
namespace Sorted
open Std List

variable {α : Type}
variable {l : List α} {a : α}

instance transOrdSubtype [Ord α] [TransOrd α] {p : α → Prop} : TransOrd { a // p a } where
  eq_swap {a b} := @OrientedCmp.eq_swap α compare _ a.1 b.1
  isLE_trans {a b c} := @TransCmp.isLE_trans α compare _ a.1 b.1 c.1

instance lawfulEqOrdSubtype [Ord α] [LawfulEqOrd α] {p : α → Prop} : LawfulEqOrd { a // p a } where
  compare_self {a} := @ReflCmp.compare_self α compare _ a.1
  eq_of_compare same := Subtype.ext (@LawfulEqCmp.eq_of_compare α compare _ _ _ same)

def sortBy (cmp : α → α → Ordering) (l : List α) : List α :=
  l.insertionSort fun a b => (cmp a b).isLE

theorem sortBy_perm (cmp : α → α → Ordering) (l : List α) : (sortBy cmp l).Perm l :=
  perm_insertionSort _ l

variable {cmp : α → α → Ordering}

@[simp] theorem mem_sortBy : a ∈ sortBy cmp l ↔ a ∈ l :=
  (sortBy_perm cmp l).mem_iff

theorem map_sortBy {β : Type} {cmp' : β → β → Ordering} (f : α → β)
    (same : ∀ a b, cmp a b = cmp' (f a) (f b)) (l : List α) :
    (sortBy cmp l).map f = sortBy cmp' (l.map f) :=
  map_insertionSort _ _ _ _ fun a _ b _ => by rw [same]

variable {cmp : α → α → Ordering} [TransCmp cmp]

theorem sortBy_pairwise (l : List α) : (sortBy cmp l).Pairwise fun a b => (cmp a b).isLE := by
  have total : Std.Total fun a b => (cmp a b).isLE = true := ⟨fun a b => by
    rw [@OrientedCmp.eq_swap α cmp _ b a]
    cases cmp a b <;> simp⟩
  have trans : IsTrans α fun a b => (cmp a b).isLE = true := ⟨fun a b c => TransCmp.isLE_trans⟩
  exact pairwise_insertionSort _ l

theorem le_last (sorted : l.Pairwise fun a b => (cmp a b).isLE) (mem : a ∈ l) :
    ∃ last ∈ l.getLast?, (cmp a last).isLE := by
  obtain ⟨start, last, rfl⟩ := (eq_nil_or_concat' l).resolve_left (ne_nil_of_mem mem)
  refine ⟨last, by simp, ?_⟩
  rcases mem_append.1 mem with mem | mem
  · exact (pairwise_append.1 sorted).2.2 a mem last (by simp)
  · rw [mem_singleton.1 mem, @ReflCmp.compare_self α cmp]
    rfl

theorem head_le (sorted : l.Pairwise fun a b => (cmp a b).isLE) (mem : a ∈ l) :
    ∃ first ∈ l.head?, (cmp first a).isLE := by
  cases l with
  | nil => simp at mem
  | cons first rest =>
    refine ⟨first, rfl, ?_⟩
    rcases mem_cons.1 mem with rfl | mem
    · rw [@ReflCmp.compare_self α cmp]
      rfl
    · exact (pairwise_cons.1 sorted).1 a mem

/-- Where a property holds of all that stands before, what is taken while it holds is all of it. -/
theorem takeWhile_eq_filter {p : α → Bool} (initial : l.Pairwise fun a b => p b → p a) :
    l.takeWhile p = l.filter p := by
  induction l with
  | nil => rfl
  | cons a l ih =>
    obtain ⟨first, rest⟩ := pairwise_cons.1 initial
    by_cases holds : p a
    · simp [holds, ih rest]
    · have none : l.filter p = [] := filter_eq_nil_iff.2 fun b mem holds' => holds (first b mem holds')
      simp [holds, none]

theorem sortBy_increasing [LawfulEqCmp cmp] (nodup : l.Nodup) :
    (sortBy cmp l).Pairwise fun a b => cmp a b = .lt := by
  have distinct : (sortBy cmp l).Nodup := (sortBy_perm cmp l).nodup_iff.2 nodup
  refine (sortBy_pairwise l).imp₂ (fun a b le differ => ?_) distinct
  cases order : cmp a b with
  | lt => rfl
  | eq => exact absurd (LawfulEqCmp.eq_of_compare order) differ
  | gt => simp [order] at le

/-- The order of the elements that are sorted does not matter when different elements
compare as different. -/
theorem sortBy_eq_of_perm {l l' : List α} (perm : l.Perm l')
    (distinct : ∀ a ∈ l, ∀ b ∈ l, cmp a b = .eq → a = b) : sortBy cmp l = sortBy cmp l' := by
  have perm' : (sortBy cmp l).Perm (sortBy cmp l') :=
    (sortBy_perm cmp l).trans (perm.trans (sortBy_perm cmp l').symm)
  refine List.Perm.eq_of_pairwise ?_ (sortBy_pairwise l) (sortBy_pairwise l') perm'
  intro a b mem mem' le ge
  refine distinct a (mem_sortBy.1 mem) b (perm.mem_iff.2 (mem_sortBy.1 mem')) ?_
  rw [@OrientedCmp.eq_swap α cmp _ b a] at ge
  cases order : cmp a b <;> simp_all

/-- A sorted list in which no neighbours compare as equal has no two elements that do. -/
theorem distinct_of_adjacent (sorted : l.Pairwise fun a b => (cmp a b).isLE)
    (adjacent : ∀ pair ∈ l.zip l.tail, cmp pair.1 pair.2 ≠ .eq) :
    ∀ a ∈ l, ∀ b ∈ l, cmp a b = .eq → a = b := by
  have increasing : l.Pairwise fun a b => cmp a b = .lt := by
    induction l with
    | nil => exact .nil
    | cons a l ih =>
      cases l with
      | nil => exact pairwise_singleton _ _
      | cons b l =>
        obtain ⟨first, sorted⟩ := pairwise_cons.1 sorted
        have rest := ih sorted fun pair mem => adjacent pair (by simpa using .inr mem)
        have step : cmp a b = .lt := by
          have differ := adjacent (a, b) (by simp)
          cases order : cmp a b <;> simp_all
        refine pairwise_cons.2 ⟨fun c mem => ?_, rest⟩
        rcases mem_cons.1 mem with rfl | mem
        · exact step
        · exact TransCmp.lt_trans step ((pairwise_cons.1 rest).1 c mem)
  have symmetric : Std.Symm fun a b => cmp a b ≠ .eq :=
    ⟨fun a b differ same => differ (OrientedCmp.eq_symm same)⟩
  have differ : l.Pairwise fun a b => cmp a b ≠ .eq := increasing.imp fun lt same => by
    rw [lt] at same
    contradiction
  intro a mem b mem' same
  by_contra ne
  exact differ.forall mem mem' ne same

end Sorted
