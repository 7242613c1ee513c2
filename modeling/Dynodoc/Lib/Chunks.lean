import Mathlib.Data.List.Basic
import Mathlib.Data.Nat.Basic

/-! Lists in pieces of a fixed length. -/
namespace Chunks
open List Nat

variable {α β : Type}
variable {width : Nat} {f : α → List β} {l : List α}

variable {x : List α}

/-- Piece number `index`; the last piece may be short. -/
def chunk (width index : Nat) (l : List α) : List α := (l.drop (index * width)).take width

theorem chunk_length (width index : Nat) (l : List α) :
    (chunk width index l).length = min width (l.length - index * width) := by
  rw [chunk, length_take, length_drop]

theorem getElem?_chunk {width place : Nat} (index : Nat) (l : List α) (inside : place < width) :
    (chunk width index l)[place]? = l[index * width + place]? := by
  rw [chunk, getElem?_take, if_pos inside, getElem?_drop]

theorem chunk_append (positive : 0 < width) (index : Nat) (l : List α) (a : α) :
    chunk width index (l ++ [a]) =
      chunk width index l ++ if l.length / width = index then [a] else [] := by
  rcases lt_or_ge l.length (index * width) with before | after
  · have other : l.length / width ≠ index := by
      have below := (div_lt_iff_lt_mul positive).2 before
      omega
    rw [if_neg other, chunk, chunk, drop_of_length_le (by simp; omega),
      drop_of_length_le (by omega), append_nil]
  · rw [chunk, chunk, drop_append_of_le_length after]
    by_cases here : l.length / width = index
    · have below : l.length < (index + 1) * width := (div_lt_iff_lt_mul positive).1 (by omega)
      rw [succ_mul] at below
      rw [if_pos here, take_of_length_le (by simp; omega),
        take_of_length_le (by simp; omega)]
    · have full : (index + 1) * width ≤ l.length := by
        rw [← le_div_iff_mul_le positive]
        have reached := (le_div_iff_mul_le positive).2 after
        omega
      rw [succ_mul] at full
      rw [if_neg here, take_append_of_le_length (by simp; omega), append_nil]

theorem exists_chunk_append (width index : Nat) (l more : List α) :
    ∃ extra, chunk width index (l ++ more) = chunk width index l ++ extra :=
  ⟨_, by rw [chunk, drop_append, take_append, ← chunk]⟩

/-- Encodings of one length can be found by their place. -/
theorem drop_flatMap (even : ∀ a, (f a).length = width)
    (l : List α) (count : Nat) : (l.flatMap f).drop (count * width) = (l.drop count).flatMap f := by
  induction count generalizing l with
  | zero => simp
  | succ count ih =>
    cases l with
    | nil => simp
    | cons a l =>
      rw [flatMap_cons, Nat.succ_mul, Nat.add_comm, ← drop_drop,
        drop_append_of_le_length (Nat.le_of_eq (even a).symm),
        drop_of_length_le (Nat.le_of_eq (even a)), nil_append, ih, drop_succ_cons]

theorem take_flatMap (even : ∀ a, (f a).length = width)
    (l : List α) (count : Nat) : (l.flatMap f).take (count * width) = (l.take count).flatMap f := by
  induction count generalizing l with
  | zero => simp
  | succ count ih =>
    cases l with
    | nil => simp
    | cons a l =>
      rw [flatMap_cons, take_succ_cons, flatMap_cons, ← ih, take_append, even,
        take_of_length_le (by rw [even, Nat.succ_mul]; omega), Nat.succ_mul,
        Nat.add_sub_cancel]

theorem length_flatMap (even : ∀ a, (f a).length = width)
    (l : List α) : (l.flatMap f).length = l.length * width := by
  induction l with
  | nil => simp
  | cons a l ih => rw [flatMap_cons, length_append, even, ih, length_cons, Nat.succ_mul,
      Nat.add_comm]

def pieces (width : Nat) (l : List α) : List (List α) :=
  if width = 0 ∨ l = [] then [] else l.take width :: pieces width (l.drop width)
termination_by l.length
decreasing_by
  rename_i more
  have some : 0 < l.length := length_pos_iff.2 fun none => more (.inr none)
  rw [length_drop]
  omega

theorem pieces_nil (width : Nat) : pieces width ([] : List α) = [] := by
  rw [pieces, if_pos (.inr rfl)]

theorem pieces_cons (positive : 0 < width) (some : x ≠ [])
    (rest : List α) (full : x.length = width ∨ rest = [] ∧ x.length ≤ width) :
    pieces width (x ++ rest) = x :: pieces width rest := by
  rw [pieces, if_neg (not_or.2 ⟨by omega, append_ne_nil_of_left_ne_nil some rest⟩)]
  rcases full with full | ⟨rfl, short⟩
  · rw [take_left' full, drop_left' full]
  · rw [append_nil, take_of_length_le short, drop_of_length_le short]

theorem pieces_single (positive : 0 < width) (some : x ≠ [])
    (short : x.length ≤ width) : pieces width x = [x] := by
  have cut := pieces_cons positive some [] (.inr ⟨rfl, short⟩)
  rwa [append_nil, pieces_nil] at cut

theorem pieces_append (positive : 0 < width) (whole : width ∣ l.length)
    (rest : List α) : pieces width (l ++ rest) = pieces width l ++ pieces width rest := by
  obtain ⟨count, length⟩ := whole
  induction count generalizing l with
  | zero =>
    rw [length_eq_zero_iff.1 length, pieces_nil, nil_append, nil_append]
  | succ count ih =>
    have front : (l.take width).length = width := by
      rw [length_take, length, mul_succ]
      omega
    have some : l.take width ≠ [] := length_pos_iff.1 (by omega)
    have back : (l.drop width).length = width * count := by
      rw [length_drop, length, mul_succ]
      omega
    calc pieces width (l ++ rest)
        = pieces width (l.take width ++ (l.drop width ++ rest)) := by
          rw [← append_assoc, take_append_drop]
      _ = l.take width :: (pieces width (l.drop width) ++ pieces width rest) := by
          rw [pieces_cons positive some _ (.inl front), ih back]
      _ = pieces width (l.take width ++ l.drop width) ++ pieces width rest := by
          rw [pieces_cons positive some _ (.inl front), cons_append]
      _ = pieces width l ++ pieces width rest := by rw [take_append_drop]

theorem flatten_pieces (positive : 0 < width) (l : List α) : (pieces width l).flatten = l := by
  fun_induction pieces width l with
  | case1 l none =>
    rw [none.resolve_left (by omega)]
    rfl
  | case2 l more ih => rw [flatten_cons, ih, take_append_drop]

theorem pieces_length_le {width count : Nat} (le : l.length ≤ count * width) :
    (pieces width l).length ≤ count := by
  induction count generalizing l with
  | zero =>
    rw [Nat.zero_mul] at le
    rw [length_eq_zero_iff.1 (Nat.le_zero.1 le), pieces_nil]
    exact Nat.le_refl 0
  | succ count ih =>
    rw [pieces]
    split
    · exact zero_le _
    · rw [succ_mul] at le
      exact succ_le_succ (ih (by rw [length_drop]; omega))

theorem length_le_pieces (positive : 0 < width) (l : List α) :
    l.length ≤ (pieces width l).length * width := by
  fun_induction pieces width l with
  | case1 l none => simp [none.resolve_left (show ¬ width = 0 by omega)]
  | case2 l more ih =>
    rw [length_drop] at ih
    rw [length_cons, succ_mul]
    omega

theorem length_of_whole (positive : 0 < width)
    (whole : width ∣ l.length) : l.length = (pieces width l).length * width := by
  fun_induction pieces width l with
  | case1 l none =>
    simp [none.resolve_left (show ¬ width = 0 by omega)]
  | case2 l more ih =>
    have some := length_pos_iff.2 fun none => more (.inr none)
    have le := Nat.le_of_dvd some whole
    have rest := ih (by rw [length_drop]; exact Nat.dvd_sub whole (Nat.dvd_refl width))
    rw [length_drop] at rest
    rw [length_cons, Nat.succ_mul]
    omega

/-- The place of a piece: it starts at a multiple of the width, and is full or last. -/
structure Piece (width : Nat) (l x : List α) : Prop where
  some : x ≠ []
  split : ∃ before after, l = before ++ (x ++ after) ∧ width ∣ before.length ∧
    (x.length = width ∨ after = [] ∧ x.length ≤ width)

variable {l : List α}

theorem Piece.mem (positive : 0 < width) (piece : Piece width l x) :
    x ∈ pieces width l := by
  obtain ⟨before, after, rfl, whole, full⟩ := piece.split
  rw [pieces_append positive whole, pieces_cons positive piece.some after full]
  exact mem_append_right _ mem_cons_self

theorem Piece.length_le (piece : Piece width l x) : x.length ≤ width := by
  obtain ⟨-, -, -, -, full | ⟨-, short⟩⟩ := piece.split
  · exact le_of_eq full
  · exact short

theorem piece_of_mem (positive : 0 < width)
    (mem : x ∈ pieces width l) : Piece width l x := by
  fun_induction pieces width l with
  | case1 l none => contradiction
  | case2 l more ih =>
    have nonempty : l ≠ [] := fun none => more (.inr none)
    have cut := take_append_drop width l
    rcases mem_cons.1 mem with rfl | mem
    · refine ⟨?_, [], l.drop width, cut.symm, Nat.dvd_zero width, ?_⟩
      · have some := length_pos_iff.2 nonempty
        refine length_pos_iff.1 ?_
        rw [length_take]
        omega
      · rcases lt_or_ge l.length width with short | long
        · exact .inr ⟨drop_of_length_le (by omega), length_take_le _ _⟩
        · exact .inl (length_take_of_le long)
    · obtain ⟨some, before, after, whole, aligned, full⟩ := ih mem
      have front : (l.take width).length = width := by
        have later := length_pos_iff.2 some
        have length := congrArg List.length whole
        rw [length_drop, length_append, length_append] at length
        rw [length_take]
        omega
      refine ⟨some, l.take width ++ before, after, ?_, ?_, full⟩
      · rw [append_assoc, ← whole, cut]
      · rw [length_append, front]
        exact Nat.dvd_add (Nat.dvd_refl width) aligned

end Chunks
