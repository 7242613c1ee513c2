import Mathlib.Data.List.Sort

/-! Scripts of edits that each replace a range of one sequence, and the sequence that two of them
together make of it. -/
namespace Edits
open List

variable {α : Type}

/-- The range from `start` up to `stop` gives way to `insert`. -/
structure Edit (α : Type) where
  start : Nat
  stop : Nat
  insert : List α

variable {es : List (Edit α)} {e : Edit α}

/-- One range ends before the other begins. -/
def Before (e f : Edit α) : Prop := e.stop ≤ f.start

def deleted (es : List (Edit α)) (i : Nat) : Bool := es.any fun e => e.start ≤ i && i < e.stop

/-- What is put in at the gap before position `i`. -/
def insertedAt (es : List (Edit α)) (i : Nat) : List α :=
  (es.filter fun e => e.start = i).flatMap Edit.insert

/-- From one gap on, for so many gaps: what is put in there, then what is kept of the position. -/
def weave (keep : Nat → List α) (es : List (Edit α)) (start n : Nat) : List α :=
  (List.range' start n).flatMap fun i => insertedAt es i ++ keep i

def byStart (e f : Edit α) : Prop := e.start ≤ f.start

instance (e f : Edit α) : Decidable (byStart e f) := inferInstanceAs (Decidable (e.start ≤ f.start))

section Weave

variable {keep : Nat → List α} {c k n : Nat}

theorem insertedAt_cons (e : Edit α) (es : List (Edit α)) (i : Nat) :
    insertedAt (e :: es) i = (if e.start = i then e.insert else []) ++ insertedAt es i := by
  unfold insertedAt
  split <;> simp_all

theorem insertedAt_eq_nil {i : Nat} (none : ∀ e ∈ es, e.start ≠ i) : insertedAt es i = [] := by
  unfold insertedAt
  rw [filter_eq_nil_iff.2 (fun e mem => by simpa using none e mem), flatMap_nil]

theorem weave_skip (later : ∀ e ∈ es, c + k ≤ e.start) :
    weave keep es c (k + n) = (List.range' c k).flatMap keep ++ weave keep es (c + k) n := by
  unfold weave
  rw [← range'_append_1, flatMap_append]
  congr 1
  refine flatMap_congr fun i mem => ?_
  rw [mem_range'_1] at mem
  rw [insertedAt_eq_nil, nil_append]
  intro e here
  have := later e here
  omega

theorem weave_insert (here : e.start = c) :
    weave keep (e :: es) c (n + 1) = e.insert ++ weave keep es c (n + 1) := by
  unfold weave
  rw [range'_succ, flatMap_cons, flatMap_cons, insertedAt_cons, if_pos here,
    append_assoc, append_assoc, append_assoc]
  congr 3
  refine flatMap_congr fun i mem => ?_
  rw [mem_range'_1] at mem
  rw [insertedAt_cons, if_neg (by omega), nil_append]

/-- The first edit: what is kept up to it, what it puts in, and the rest behind it. -/
theorem weave_cons {size : Nat} (starts : c ≤ e.start) (forward : e.start ≤ e.stop) (fits : e.stop ≤ size)
    (later : ∀ f ∈ es, e.stop ≤ f.start) (gone : ∀ i, e.start ≤ i → i < e.stop → keep i = []) :
    weave keep (e :: es) c (size + 1 - c) =
      (List.range' c (e.start - c)).flatMap keep ++ e.insert ++
        weave keep es e.stop (size + 1 - e.stop) := by
  have ahead : ∀ f ∈ e :: es, c + (e.start - c) ≤ f.start := by
    intro f mem
    rcases mem_cons.1 mem with rfl | mem
    · omega
    have := later f mem
    omega
  have count : size + 1 - c = (e.start - c) + ((size - e.start) + 1) := by omega
  have place : c + (e.start - c) = e.start := by omega
  rw [count, weave_skip ahead, place, weave_insert rfl, append_assoc]
  have removed : (List.range' e.start (e.stop - e.start)).flatMap keep = [] := by
    rw [flatMap_eq_nil_iff]
    intro i mem
    rw [mem_range'_1] at mem
    exact gone i (by omega) (by omega)
  have count' : size - e.start + 1 = (e.stop - e.start) + (size + 1 - e.stop) := by omega
  have place' : e.start + (e.stop - e.start) = e.stop := by omega
  rw [count', weave_skip (by rwa [place']), removed, place', nil_append]

end Weave

theorem insertedAt_orderedInsert (e : Edit α) (es : List (Edit α)) (i : Nat) :
    insertedAt (es.orderedInsert byStart e) i = insertedAt (e :: es) i := by
  induction es with
  | nil => rfl
  | cons f es ih =>
    rw [List.orderedInsert]
    split
    · rfl
    rename_i after
    rw [insertedAt_cons, ih, insertedAt_cons, insertedAt_cons, insertedAt_cons]
    by_cases same : e.start = i
    · rw [if_neg (by unfold byStart at after; omega), nil_append, nil_append]
    · rw [if_neg same, nil_append, nil_append]

/-- Sorting is stable: at each gap the edits keep their order. -/
theorem insertedAt_insertionSort (es : List (Edit α)) (i : Nat) :
    insertedAt (es.insertionSort byStart) i = insertedAt es i := by
  induction es with
  | nil => rfl
  | cons e es ih =>
    rw [insertionSort_cons, insertedAt_orderedInsert, insertedAt_cons, ih, insertedAt_cons]

/-- Edits whose ranges are apart, whichever starts first. -/
def Apart (e f : Edit α) : Prop :=
  (e.start ≤ f.start → e.stop ≤ f.start) ∧ (f.start < e.start → f.stop ≤ e.start)

theorem before_orderedInsert (forward : ∀ f ∈ es, f.start ≤ f.stop) (ordered : es.Pairwise Before)
    (apart : ∀ f ∈ es, Apart e f) : (es.orderedInsert byStart e).Pairwise Before := by
  induction es with
  | nil => exact pairwise_singleton _ _
  | cons f es ih =>
    obtain ⟨first, rest⟩ := pairwise_cons.1 ordered
    have starts : ∀ g ∈ es, f.start ≤ g.start := by
      intro g mem
      exact (forward f (by simp)).trans (first g mem)
    rw [List.orderedInsert]
    split
    · rename_i here
      refine pairwise_cons.2 ⟨?_, ordered⟩
      intro g mem
      refine (apart g mem).1 ?_
      rcases mem_cons.1 mem with rfl | mem
      · exact here
      · exact here.trans (starts g mem)
    · rename_i after
      refine pairwise_cons.2 ⟨?_, ih (fun g mem => forward g (by simp [mem])) rest
        fun g mem => apart g (by simp [mem])⟩
      intro g mem
      rcases (mem_orderedInsert byStart).1 mem with rfl | mem
      · exact (apart f (by simp)).2 (by unfold byStart at after; omega)
      · exact first g mem

/-- Two scripts whose edits are apart can be sorted into one. -/
theorem before_insertionSort {fs : List (Edit α)} (forward : ∀ e ∈ es ++ fs, e.start ≤ e.stop)
    (ordered : es.Pairwise Before) (ordered' : fs.Pairwise Before)
    (apart : ∀ e ∈ es, ∀ f ∈ fs, Apart e f) : ((es ++ fs).insertionSort byStart).Pairwise Before := by
  induction es with
  | nil =>
    have sorted : fs.Pairwise byStart :=
      ordered'.imp_of_mem fun {e f} mem _ before => (forward e (by simp [mem])).trans before
    rwa [nil_append, sorted.insertionSort_eq]
  | cons e es ih =>
    obtain ⟨first, rest⟩ := pairwise_cons.1 ordered
    have tail := ih (fun f mem => forward f (by simp_all)) rest
      (fun f mem => apart f (by simp [mem]))
    rw [cons_append, insertionSort_cons]
    refine before_orderedInsert ?_ tail ?_
    · intro f mem
      exact forward f (by simp_all)
    · intro f mem
      rw [mem_insertionSort, mem_append] at mem
      rcases mem with mem | mem
      · have before : e.stop ≤ f.start := first f mem
        have := forward e (by simp)
        exact ⟨fun _ => before, fun after => absurd after (by omega)⟩
      · exact apart e (by simp) f mem

end Edits
