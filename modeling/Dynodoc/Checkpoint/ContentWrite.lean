import Dynodoc.Checkpoint.ContentTree

/-! The builder makes the tree of the bytes it is given, in whatever portions they come.
All statements hold for one byte string `data` that is being written; `rich` says that the
limits are large enough for it, and no step fails then. -/
namespace Dynodoc.Checkpoint.Content

open Chunks (pieces Piece)
open List Chunks Writer Nat Writer.Ready Effect.Ends

variable {levels : List (List Reference)} {other : Address → List UInt8 → Except Error Unit}
  {known' : Address → List UInt8 → Prop} {data : List UInt8} {sha256 : List UInt8 → Address}
  {count height : Nat} {refs : List Reference} {input : Input} {rich : Prop} {w : Writer}

section Levels

variable (sha256 : List UInt8 → Address) (known : Address → List UInt8 → Prop)

/-- The references at one height to trees over the pieces of `low`. -/
structure Row (height : Nat) (low : List UInt8) (refs : List Reference) : Prop where
  nodes : refs = (pieces (capacity height) low).map (node sha256 height)
  few : refs.length < fanout
  stored : ∀ x ∈ pieces (capacity height) low, Stored sha256 known height x

/-- The open branches from one height on, over bytes that fill whole trees of it. -/
inductive Levels : Nat → List (List Reference) → List UInt8 → Prop where
  | nil {height : Nat} : Levels height [] []
  | cons {height : Nat} {refs : List Reference} {up : List (List Reference)}
      {high low : List UInt8} (above : Levels (height + 1) up high)
      (row : Row sha256 known height low refs) (whole : capacity height ∣ low.length) :
      Levels height (refs :: up) (high ++ low)

/-- The same at the end of the input: the last tree may be short, and the levels below it
are empty. -/
inductive Last : Nat → List (List Reference) → List UInt8 → Prop where
  | here {height : Nat} {refs : List Reference} {up : List (List Reference)}
      {high low : List UInt8} (above : Levels sha256 known (height + 1) up high)
      (row : Row sha256 known height low refs) (some : low ≠ []) :
      Last height (refs :: up) (high ++ low)
  | above {height : Nat} {up : List (List Reference)} {data : List UInt8}
      (wide : capacity height < data.length) (last : Last (height + 1) up data) :
      Last height ([] :: up) data

variable {sha256 known}

theorem Row.mono
    (more : ∀ a bytes, known a bytes → known' a bytes) {low : List UInt8}
    (row : Row sha256 known height low refs) :
    Row sha256 known' height low refs :=
  { row with stored := fun x mem => (row.stored x mem).mono more }

section Facts

variable (here : Levels sha256 known height levels data)

include here

theorem Levels.mono (more : ∀ a bytes, known a bytes → known' a bytes) :
    Levels sha256 known' height levels data := by
  induction here with
  | nil => exact .nil
  | cons above row whole ih => exact .cons ih (row.mono more) whole

theorem Levels.dvd : capacity height ∣ data.length := by
  induction here with
  | nil => exact dvd_zero _
  | @cons height refs up high low above row whole ih =>
    rw [length_append]
    rw [capacity_succ] at ih
    exact Nat.dvd_add (Nat.dvd_trans (Nat.dvd_mul_right _ _) ih) whole

theorem Levels.eq_nil (empty : levels.all isEmpty) :
    data = [] := by
  induction here with
  | nil => rfl
  | @cons height refs up high low above row whole ih =>
    simp only [all_cons, Bool.and_eq_true, List.isEmpty_iff] at empty
    have none : pieces (capacity height) low = [] := by
      have refs_eq := row.nodes
      rw [empty.1] at refs_eq
      exact map_eq_nil_iff.1 refs_eq.symm
    have low_nil := flatten_pieces (capacity_pos height) low
    rw [none] at low_nil
    rw [ih empty.2, ← low_nil]
    rfl

end Facts

theorem Levels.all_isEmpty
    (here : Levels sha256 known height levels []) : levels.all isEmpty := by
  generalize none : ([] : List UInt8) = data at here
  induction here with
  | nil => rfl
  | @cons height refs up high low above row whole ih =>
    obtain ⟨rfl, rfl⟩ := append_eq_nil_iff.1 none.symm
    have empty := row.nodes
    rw [pieces_nil] at empty
    rw [empty, all_cons, ih rfl]
    rfl

theorem row_nil (height : Nat) : Row sha256 known height [] [] := by
  refine ⟨?_, by decide, ?_⟩
  all_goals simp [pieces_nil]

theorem levels_replicate (height count : Nat) :
    Levels sha256 known height (replicate count []) [] := by
  induction count generalizing height with
  | zero => exact .nil
  | succ count ih => exact .cons (ih (height + 1)) (row_nil height) (dvd_zero _)

/-- Whole trees are an end too. -/
theorem Levels.last (here : Levels sha256 known height levels data) (some : data ≠ []) :
    Last sha256 known height levels data := by
  induction here with
  | nil => exact absurd rfl some
  | @cons height refs up high low above row whole ih =>
    by_cases none : low = []
    · subst none
      rw [append_nil] at some ⊢
      have empty : refs = [] := by
        rw [row.nodes, pieces_nil]
        rfl
      subst empty
      have long := le_of_dvd (length_pos_iff.2 some) above.dvd
      have positive := capacity_pos height
      rw [capacity_succ, fanout] at long
      exact .above (by omega) (ih some)
    · exact .here above row none

def refCount (levels : List (List Reference)) : Nat := (levels.map List.length).sum

theorem Row.push {low x : List UInt8}
    (row : Row sha256 known height low refs) (whole : capacity height ∣ low.length)
    (some : x ≠ []) (short : x.length ≤ capacity height) (stored : Stored sha256 known height x) :
    refs ++ [node sha256 height x] =
        (pieces (capacity height) (low ++ x)).map (node sha256 height) ∧
      ∀ y ∈ pieces (capacity height) (low ++ x), Stored sha256 known height y := by
  rw [pieces_append (capacity_pos height) whole,
    pieces_single (capacity_pos height) some short, map_append, ← row.nodes]
  refine ⟨rfl, fun y mem => ?_⟩
  rcases mem_append.1 mem with mem | mem
  · exact row.stored y mem
  · rw [mem_singleton.1 mem]
    exact stored

end Levels

section Build

variable (fits : data.length ≤ capacity maxHeight)
  (distinct : CollisionFree sha256 data)

def Ready (sha256 : List UInt8 → Address) (data : List UInt8) (rich : Prop) (count : Nat)
    (w : Writer) : Prop :=
  w.Ready (IsObject sha256 data) rich objectSize count

include fits distinct

theorem branch_ends (le : height + 1 ≤ maxHeight) {x : List UInt8}
    (piece : Piece (capacity (height + 1)) data x) (ready : Ready sha256 data rich (count + 1) w)
    (stored : ∀ y ∈ pieces (capacity height) x, Stored sha256 w.Knows height y) : Effect.Ends
      (branch sha256 other (height + 1) ((pieces (capacity height) x).map (node sha256 height)) w)
      (fun child w' => child = node sha256 (height + 1) x ∧ Ready sha256 data rich count w' ∧
        w.Grows w' ∧ Stored sha256 w'.Knows (height + 1) x) (fun _ => ¬ rich) := by
  have written := encoded_ends (trusted_objects sha256 other fits distinct)
    (isObject_piece sha256 le piece) (objectOf_length sha256 piece.length_le) ready
  refine bind written ?_
  rintro _ w' ⟨rfl, ready', grows, knows⟩
  refine ⟨?_, ready', grows, knows, fun y mem => (stored y mem).mono grows⟩
  rw [totalLength_nodes height _ (capacity_pos height)]
  exact (node_eq (height + 1) x).symm

theorem push_ends (room : height + levels.length = maxHeight + 1) (le : height ≤ maxHeight)
    {before x after : List UInt8}
    (here : Levels sha256 w.Knows height levels before) (whole : data = before ++ (x ++ after))
    (some : x ≠ []) (short : x.length ≤ capacity height)
    (full : x.length = capacity height ∨ after = []) (stored : Stored sha256 w.Knows height x)
    (ready : Ready sha256 data rich (count + refCount levels + 1) w) :
    Effect.Ends (push sha256 other height levels (node sha256 height x) w)
      (fun levels' w' => levels'.length = levels.length ∧
        Ready sha256 data rich (count + refCount levels') w' ∧ w.Grows w' ∧
        Last sha256 w'.Knows height levels' (before ++ x) ∧
        (x.length = capacity height → Levels sha256 w'.Knows height levels' (before ++ x)))
      (fun _ => ¬ rich) := by
  induction levels generalizing height count before x w with
  | nil =>
    rw [length_nil] at room
    omega
  | cons refs up ih =>
    cases here with
    | @cons _ _ _ high low above row aligned =>
    obtain ⟨nodes, all⟩ := row.push aligned some short stored
    have lows := length_of_whole (capacity_pos height) aligned
    have positive := length_pos_iff.2 some
    have count_refs : refs.length = (pieces (capacity height) low).length := by
      rw [row.nodes, length_map]
    have few := row.few
    have total : refCount (refs :: up) = refs.length + refCount up := by
      rfl
    rw [push]
    by_cases open_ : (refs ++ [node sha256 height x]).length < fanout
    · rw [if_pos open_]
      have row' : Row sha256 w.Knows height (low ++ x) (refs ++ [node sha256 height x]) :=
        ⟨nodes, open_, all⟩
      refine ⟨rfl, mono ready ?_, fun _ _ => id, ?_, fun exact_ => ?_⟩
      · rw [refCount, map_cons, length_append]
        change count + (refs.length + 1 + refCount up) ≤ _
        omega
      · rw [append_assoc]
        exact .here above row' (append_ne_nil_of_right_ne_nil low some)
      · rw [append_assoc]
        refine .cons above row' ?_
        rw [length_append, exact_]
        exact Nat.dvd_add aligned (Nat.dvd_refl _)
    · have refs_length : refs.length = 127 := by
        rw [length_append, length_singleton, fanout] at open_
        rw [fanout] at few
        omega
      rw [← count_refs, refs_length] at lows
      have wider := capacity_succ height
      rw [fanout] at wider
      -- 128 trees of the greatest height do not fit
      have higher : height + 1 ≤ maxHeight := by
        by_contra top
        obtain rfl : height = maxHeight := by omega
        rw [whole, length_append, length_append] at fits
        omega
      -- the closed branch is a piece of the data one level up
      have piece : Piece (capacity (height + 1)) data (low ++ x) := by
        refine ⟨append_ne_nil_of_right_ne_nil low some, high, after, ?_, above.dvd, ?_⟩
        · rw [whole, append_assoc, append_assoc]
        · rw [length_append]
          rcases full with full | full
          · exact .inl (by omega)
          · exact .inr ⟨full, by omega⟩
      have paid : Ready sha256 data rich (count + 126 + refCount up + 1 + 1) w :=
        mono ready (by omega)
      rw [if_neg open_, if_neg (by omega), nodes]
      refine bind (branch_ends fits distinct higher piece paid all) ?_
      rintro _ w₁ ⟨rfl, ready₁, grows₁, stored₁⟩
      have next := ih (by rw [length_cons] at room; omega) higher (above.mono grows₁)
        (show data = high ++ ((low ++ x) ++ after) by
          rw [whole, append_assoc, append_assoc])
        piece.some piece.length_le (full.imp_left fun full => by rw [length_append]; omega)
        stored₁ ready₁
      refine bind next ?_
      rintro up' w₂ ⟨length, ready₂, grows₂, last, levels⟩
      refine ⟨congrArg succ length, mono ready₂ ?_,
        fun a bytes known => grows₂ a bytes (grows₁ a bytes known), ?_, fun exact_ => ?_⟩
      · rw [refCount]
        change count + (0 + refCount up') ≤ _
        omega
      · rw [append_assoc]
        exact .above (by rw [length_append, length_append]; omega) last
      · have joined := levels (by rw [length_append]; omega)
        rw [append_assoc, ← append_nil (high ++ (low ++ x))]
        exact .cons joined (row_nil height) (dvd_zero _)

theorem finish_ends {remaining : Nat}
    (room : height + levels.length = maxHeight + 1) (all : remaining = levels.length)
    (least : height = 0 ∨ capacity (height - 1) < data.length)
    (last : Last sha256 w.Knows height levels data)
    (ready : Ready sha256 data rich (count + refCount levels + remaining) w) :
    Effect.Ends (finish sha256 other remaining height levels w)
      (fun top w' => heightFor data.length = .ok top.1 ∧ top.2 = node sha256 top.1 data ∧
        Ready sha256 data rich count w' ∧ Stored sha256 w'.Knows top.1 data)
      (fun _ => ¬ rich) := by
  induction remaining generalizing height count levels w with
  | zero =>
    rw [length_eq_zero_iff.1 all.symm] at last
    cases last
  | succ remaining ih =>
    generalize full : data = whole at last
    cases last with
    | @above _ up _ wide last =>
      subst full
      have room' : height + 1 + up.length = maxHeight + 1 := by
        rw [length_cons] at room
        omega
      refine ih room' (succ.inj all) (.inr wide) last (mono ready ?_)
      rw [refCount, refCount, map_cons, sum_cons]
      omega
    | @here _ refs up high low above row some =>
      have width := capacity_pos height
      have positive := length_pos_iff.2 some
      have long := length_le_pieces width low
      have few := row.few
      rw [row.nodes, length_map, fanout] at few
      have wider := capacity_succ height
      rw [fanout] at wider
      have short : low.length ≤ capacity (height + 1) := by
        have bound := mul_le_mul_right (capacity height) (le_of_lt few)
        omega
      have total : refCount (refs :: up) = refs.length + refCount up := by
        rfl
      rw [total] at ready
      have refs_eq := row.nodes
      cases refs with
      | nil =>
        have none := map_eq_nil_iff.1 refs_eq.symm
        rw [none, length_nil] at long
        omega
      | cons child more =>
        rw [finish]
        have room' : height + 1 + up.length = maxHeight + 1 := by
          rw [length_cons] at room
          omega
        have above_long (low_up : up.all isEmpty = false) :
            capacity (height + 1) ≤ high.length := by
          refine le_of_dvd (length_pos_iff.2 fun none => ?_) above.dvd
          subst none
          rw [above.all_isEmpty] at low_up
          contradiction
        by_cases single : more = [] ∧ up.all isEmpty
        · obtain ⟨rfl, empty⟩ := single
          obtain rfl := above.eq_nil empty
          subst full
          rw [if_pos ⟨rfl, empty⟩]
          have one : (pieces (capacity height) data).length = 1 := by
            rw [← length_map (node sha256 height), ← refs_eq]
            rfl
          rw [one, one_mul] at long
          rw [pieces_single width some long] at refs_eq
          cases refs_eq
          refine ⟨heightFor_eq (by omega) long least, rfl, mono ready (by omega), ?_⟩
          exact row.stored data (by rw [pieces_single width some long]; simp)
        · -- there is more than one tree of this height
          have large : capacity height < (high ++ low).length := by
            rw [length_append]
            by_cases one : more = []
            · have higher := above_long (by
                rw [not_and, Bool.not_eq_true] at single
                exact single one)
              omega
            · have two : ¬ (pieces (capacity height) low).length ≤ 1 := by
                rw [← length_map (node sha256 height), ← refs_eq, length_cons]
                have more_pos := length_pos_iff.2 one
                omega
              have bound := mt pieces_length_le two
              omega
          have higher : height + 1 ≤ maxHeight := by
            by_contra top
            obtain rfl : height = maxHeight := by omega
            rw [full] at fits
            omega
          rw [if_neg single, if_neg (by omega), refs_eq]
          have whole' : data = high ++ (low ++ []) := by rw [append_nil, full]
          have piece : Piece (capacity (height + 1)) data low :=
            ⟨some, high, [], whole', above.dvd, .inr ⟨rfl, short⟩⟩
          have paid : Ready sha256 data rich (count + remaining + more.length + refCount up + 1 + 1)
              w := mono ready (by rw [length_cons]; omega)
          refine bind (branch_ends fits distinct higher piece paid row.stored) ?_
          rintro _ w₁ ⟨rfl, ready₁, grows₁, stored₁⟩
          refine bind (push_ends fits distinct room' higher (above.mono grows₁) whole'
            some short (.inr rfl) stored₁ ready₁) ?_
          rintro up' w₂ ⟨length, ready₂, -, last, -⟩
          rw [← full] at last large ⊢
          have ready' : Ready sha256 data rich (count + refCount up' + remaining) w₂ :=
            mono ready₂ (by omega)
          rw [← length] at room'
          exact ih room' (by rw [length_cons] at all; omega) (.inr large) last ready'

end Build

theorem fill_eq (portions : ∀ portion ∈ input, portion ≠ []) (room : Nat) :
    (fill room input).1 = input.flatten.take room ∧
      (fill room input).2.flatten = input.flatten.drop room ∧
      ∀ portion ∈ (fill room input).2, portion ≠ [] := by
  induction input generalizing room with
  | nil => simp [fill]
  | cons portion rest ih =>
    have later := ih (fun p mem => portions p (mem_cons_of_mem _ mem)) (room - portion.length)
    rw [fill, if_neg (portions portion mem_cons_self), flatten_cons]
    by_cases none : room = 0
    · subst none
      exact ⟨rfl, rfl, portions⟩
    · rw [if_neg none]
      by_cases short : portion.length ≤ room
      · rw [if_pos short, take_append, drop_append, take_of_length_le short,
          drop_of_length_le short, ← later.1, ← later.2.1]
        exact ⟨rfl, rfl, later.2.2⟩
      · have le : room ≤ portion.length := by omega
        rw [if_neg short, take_append_of_le_length le, drop_append_of_le_length le]
        refine ⟨rfl, rfl, fun p mem => ?_⟩
        rcases mem_cons.1 mem with rfl | mem
        · refine length_pos_iff.1 ?_
          rw [length_drop]
          omega
        · exact portions p (mem_cons_of_mem _ mem)

theorem chunkCount_step {rest : List UInt8} (some : rest ≠ []) :
    chunkCount rest = chunkCount (rest.drop chunkBytes) + 1 := by
  have positive := length_pos_iff.2 some
  rw [chunkCount, chunkCount, length_drop, chunkBytes]
  omega

section Write

variable (fits : data.length ≤ capacity maxHeight)
  (distinct : CollisionFree sha256 data)

include fits distinct

theorem writeChunks_ends (portions : ∀ portion ∈ input, portion ≠ [])
    {first : Bool} (start : first = true → input.flatten ≠ [])
    (room : levels.length = maxHeight + 1) {before : List UInt8}
    (here : Levels sha256 w.Knows 0 levels before) (whole : data = before ++ input.flatten)
    (some : data ≠ [])
    (ready : Ready sha256 data rich (count + refCount levels + 2 * chunkCount input.flatten) w) :
    Effect.Ends (writeChunks sha256 other input first levels w)
      (fun levels' w' => levels'.length = maxHeight + 1 ∧
        Ready sha256 data rich (count + refCount levels') w' ∧
        Last sha256 w'.Knows 0 levels' data) (fun _ => ¬ rich) := by
  generalize size : input.flatten.length = n
  induction n using Nat.strong_induction_on generalizing input first levels before w with
  | _ n ih =>
  obtain ⟨filled, left, portions'⟩ := fill_eq portions chunkBytes
  rw [writeChunks, filled]
  by_cases none : input.flatten = []
  · have again : first = false := by
      cases first with
      | false => rfl
      | true => exact absurd none (start rfl)
    rw [none, append_nil] at whole
    subst whole
    rw [none, take_nil, if_pos ⟨rfl, again⟩]
    exact ⟨room, Writer.Ready.mono ready (by omega), here.last some⟩
  · have positive := length_pos_iff.2 none
    have chunk_pos : 0 < chunkBytes := by decide
    have front : input.flatten.take chunkBytes ≠ [] := by
      refine length_pos_iff.1 ?_
      rw [length_take]
      omega
    have cut : data = before ++ (input.flatten.take chunkBytes ++ input.flatten.drop chunkBytes) := by
      rw [take_append_drop, whole]
    have short : (input.flatten.take chunkBytes).length ≤ capacity 0 := length_take_le _ _
    have full : (input.flatten.take chunkBytes).length = capacity 0 ∨
        input.flatten.drop chunkBytes = [] := by
      rcases le_total chunkBytes input.flatten.length with long | le
      · exact .inl (length_take_of_le long)
      · exact .inr (drop_of_length_le le)
    have piece : Piece (capacity 0) data (input.flatten.take chunkBytes) :=
      ⟨front, before, _, cut, here.dvd, full.imp_right fun none => ⟨none, short⟩⟩
    have paid : Ready sha256 data rich
        (count + 2 * chunkCount (input.flatten.drop chunkBytes) + refCount levels + 1 + 1) w := by
      rw [chunkCount_step none] at ready
      exact Writer.Ready.mono ready (by omega)
    rw [if_neg fun last => front last.1]
    refine Effect.Ends.bind (encoded_ends (trusted_objects sha256 other fits distinct)
      (isObject_piece sha256 (zero_le _) piece) (objectOf_length sha256 short) paid) ?_
    rintro _ w₁ ⟨rfl, ready₁, grows₁, knows⟩
    refine Effect.Ends.bind (push_ends fits distinct (by rw [room, zero_add]) (zero_le _)
      (here.mono grows₁) cut front short full knows ready₁) ?_
    rintro levels' w₂ ⟨length, ready₂, -, last, levels⟩
    rw [room] at length
    by_cases ended : (input.flatten.take chunkBytes).length < chunkBytes
    · rw [dif_pos ended]
      rw [full.resolve_left (Nat.ne_of_lt ended), append_nil] at cut
      rw [← cut] at last
      exact ⟨length, Writer.Ready.mono ready₂ (by omega), last⟩
    · rw [dif_neg ended]
      have less : (fill chunkBytes input).2.flatten.length < n := by
        rw [left, length_drop]
        omega
      refine ih _ less portions' (fun never : false = true => nomatch never) length
        (levels (le_antisymm short (not_lt.1 ended))) ?_ ?_ rfl
      · rw [left, append_assoc, cut]
      · rw [left]
        exact Writer.Ready.mono ready₂ (by omega)

omit fits in
theorem empty_ends (none : data = []) (ready : Ready sha256 data rich (count + 1) w) : Effect.Ends
      ((writeChunks sha256 other [] true (replicate (maxHeight + 1) []) >>=
        finish sha256 other (maxHeight + 1) 0) w)
      (fun top w' => top = (0, node sha256 0 data) ∧ Ready sha256 data rich count w' ∧
        Stored sha256 w'.Knows 0 data) (fun _ => ¬ rich) := by
  subst none
  have object : IsObject sha256 [] (address sha256 (chunkObject [])) (chunkObject []) :=
    ⟨by rw [contentObjects]; simp, rfl⟩
  have chunk : (fill chunkBytes []).1 = [] := rfl
  rw [writeChunks, chunk, if_neg (by simp), bind_assoc]
  refine Effect.Ends.bind (encoded_ends (trusted_objects sha256 other (zero_le _)
    distinct) object (by decide) ready) ?_
  rintro _ w₁ ⟨rfl, ready₁, -, knows⟩
  exact ⟨rfl, ready₁, knows⟩

theorem writeWithWriter_ends (portions : ∀ portion ∈ input, portion ≠ [])
    (whole : input.flatten = data) (ready : Ready sha256 data rich (2 * chunkCount data + 6) w) :
    Effect.Ends (writeWithWriter sha256 other input w)
      (fun root w' => root = contentRoot sha256 data ∧ w'.Agrees (IsObject sha256 data) ∧
        w'.Knows root (rootOf sha256 data) ∧ Stored sha256 w'.Knows (treeHeight data.length) data)
      (fun _ => ¬ rich) := by
  have top_ends : Effect.Ends
      ((writeChunks sha256 other input true (replicate (maxHeight + 1) []) >>=
        finish sha256 other (maxHeight + 1) 0) w)
      (fun top w' => heightFor data.length = .ok top.1 ∧ top.2 = node sha256 top.1 data ∧
        Ready sha256 data rich 1 w' ∧ Stored sha256 w'.Knows top.1 data) (fun _ => ¬ rich) := by
    by_cases none : data = []
    · have nothing : input = [] := by
        refine eq_nil_iff_forall_not_mem.2 fun portion mem => portions portion mem ?_
        exact flatten_eq_nil_iff.1 (whole.trans none) portion mem
      subst nothing
      have paid : Ready sha256 data rich (1 + 1) w := Writer.Ready.mono ready (by omega)
      refine (empty_ends distinct none paid).mono ?_ fun _ => id
      rintro _ w' ⟨rfl, ready', stored⟩
      exact ⟨by rw [none]; rfl, rfl, ready', stored⟩
    · have held : refCount (replicate (maxHeight + 1) []) = 0 := rfl
      have paid : Ready sha256 data rich (6 + refCount (replicate (maxHeight + 1) []) +
          2 * chunkCount input.flatten) w := by
        rw [held, whole]
        exact Writer.Ready.mono ready (by omega)
      refine Effect.Ends.bind (writeChunks_ends fits distinct portions
        (fun _ => whole.symm ▸ none) length_replicate
        (levels_replicate 0 (maxHeight + 1)) whole.symm none paid) ?_
      rintro levels w₁ ⟨length, ready₁, last⟩
      refine finish_ends fits distinct (by omega) length.symm (.inl rfl) last ?_
      exact Writer.Ready.mono ready₁ (by rw [maxHeight]; omega)
  rw [writeWithWriter, ← bind_assoc]
  refine Effect.Ends.bind top_ends ?_
  rintro ⟨height, child⟩ w₁ ⟨found, node_top, ready₁, stored⟩
  dsimp only at found node_top stored ⊢
  have own := treeHeight_eq found
  have object : rootObject height child = rootOf sha256 data := by rw [rootOf, own, node_top]
  rw [object]
  refine (encoded_ends (trusted_objects sha256 other fits distinct)
    (isObject_root sha256 data) (rootOf_length sha256 data) ready₁).mono ?_ fun _ => id
  rintro _ w₂ ⟨rfl, ready₂, grows, knows⟩
  rw [own]
  exact ⟨rfl, ready₂.toAgrees, knows, stored.mono grows⟩

/-- A content write gives the root of the bytes, whatever portions they came in, and leaves
their tree in the store. It fails only for lack of budget. -/
theorem write_ends (portions : ∀ portion ∈ input, portion ≠ [])
    (whole : input.flatten = data) {store : Store} (agrees : store.Agrees (IsObject sha256 data))
    (limits : Limits) : Effect.Ends (write sha256 other store input limits)
      (fun result w => result.1 = contentRoot sha256 data ∧
        w.store.objects (contentRoot sha256 data) = some (rootOf sha256 data) ∧
        Stored sha256 (fun a bytes => w.store.objects a = some bytes)
          (treeHeight data.length) data)
      (fun _ => ¬ Limits.Enough limits data) := by
  have ready : Ready sha256 data (Limits.Enough limits data) (2 * chunkCount data + 6)
      (start store limits) :=
    { agrees := agrees
      pending := fun o mem => nomatch mem
      funded := fun enough => enough.mono (by omega) }
  refine Effect.Ends.bind (writeWithWriter_ends fits distinct portions whole ready) ?_
  rintro _ w₁ ⟨rfl, sound, root, stored⟩
  obtain ⟨w₂, flushed, -, grows, empty, -⟩ :=
    flush_ok (trusted_objects sha256 other fits distinct) sound
  have kept (a : Address) (bytes : List UInt8) (known : w₁.Knows a bytes) :
      w₂.store.objects a = some bytes := by
    refine (grows a bytes known).resolve_left fun waiting => ?_
    rw [empty] at waiting
    contradiction
  rw [Effect.bind_of_ok flushed, Effect.get_bind]
  exact ⟨rfl, kept _ _ root, stored.mono kept⟩

end Write

end Dynodoc.Checkpoint.Content
