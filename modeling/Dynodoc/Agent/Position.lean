import Mathlib.Data.String.Basic
import Mathlib.Data.List.GetD

/-! Position keys. Siblings are ordered by a text; a new node gets a text between those of its
neighbours, found by walking both keys one UTF-16 code unit at a time. -/
namespace Dynodoc.Agent
open List Char

variable {s key : String} {stop : Nat}

def maxKeySteps : Nat := 200

def utf16 (c : Char) : List Nat :=
  if c.toNat < 0x10000 then [c.toNat]
  else [0xD800 + (c.toNat - 0x10000) / 0x400, 0xDC00 + (c.toNat - 0x10000) % 0x400]

def encodeUtf16 (s : String) : List Nat := s.toList.flatMap utf16

/-- Nothing when a surrogate stands alone. -/
def fromUtf16 : List Nat → Option (List Char)
  | [] => some []
  | [u] => if 0xD800 ≤ u ∧ u < 0xE000 then none else some [ofNat u]
  | u :: v :: rest =>
    if 0xD800 ≤ u ∧ u < 0xE000 then
      if u < 0xDC00 ∧ 0xDC00 ≤ v ∧ v < 0xE000 then
        (fromUtf16 rest).map (ofNat (0x10000 + (u - 0xD800) * 0x400 + (v - 0xDC00)) :: ·)
      else none
    else (fromUtf16 (v :: rest)).map (ofNat u :: ·)

/-- A unit of a key; one that is missing or zero counts as `missing`. -/
def unitOr (missing : Nat) (key : List Nat) (i : Nat) : Nat :=
  if key.getD i 0 = 0 then missing else key.getD i 0

def gap (l r : List Nat) (i : Nat) : Bool := unitOr 32 l i + 1 < unitOr 126 r i

def unitsFrom (l r : List Nat) : Nat → Nat → List Nat → Option (List Nat)
  | 0, _, _ => none
  | steps + 1, i, start =>
    if gap l r i then some (start ++ [(unitOr 32 l i + unitOr 126 r i) / 2])
    else unitsFrom l r steps (i + 1) (start ++ [unitOr 32 l i])

def units (left : String) (right : Option String) : List Nat :=
  let l := encodeUtf16 left
  (unitsFrom l (right.elim [] encodeUtf16) maxKeySteps 0 []).getD (l ++ ['P'.toNat])

def tryBetween (left : String) (right : Option String) : Option String :=
  (fromUtf16 (units left right)).map String.ofList

def keyBetween (left right : Option String) : Option String :=
  (tryBetween (left.getD "") right).filter fun key =>
    left.all (· < key) && right.all (key < ·) && key.length ≤ maxKeySteps

section Units

def Printable (key : List Nat) : Prop := ∀ u ∈ key, 32 ≤ u ∧ u ≤ 126

variable {key l r : List Nat}

theorem fromUtf16_printable (printable : Printable key) :
    fromUtf16 key = some (key.map ofNat) := by
  induction key with
  | nil => rfl
  | cons u key ih =>
    have small := printable u (by simp)
    have rest := ih fun v mem => printable v (by simp [mem])
    have whole : ¬(0xD800 ≤ u ∧ u < 0xE000) := by omega
    cases key with
    | nil => simp [fromUtf16, whole]
    | cons v key => simp [fromUtf16, whole, rest]

theorem unitOr_eq (missing : Nat) (printable : Printable key) (i : Nat) :
    unitOr missing key i = key.getD i missing := by
  cases at_ : key[i]? with
  | none => simp [unitOr, at_]
  | some u =>
    have := printable u (mem_of_getElem? at_)
    simp only [unitOr, getD, at_, Option.getD_some]
    rw [if_neg (by omega)]

theorem getD_printable {missing : Nat} (printable : Printable key) (low : 32 ≤ missing)
    (high : missing ≤ 126) (i : Nat) : 32 ≤ key.getD i missing ∧ key.getD i missing ≤ 126 := by
  cases at_ : key[i]? with
  | none => simpa [at_] using ⟨low, high⟩
  | some u => simpa [at_] using printable u (mem_of_getElem? at_)

/-- What the walk has found when it stops: the beginning of `l`, filled with spaces, and a unit
between the two at the first gap. -/
structure Walked (l r : List Nat) (stop : Nat) (key : List Nat) : Prop where
  open_ : l.getD stop 32 + 1 < r.getD stop 126
  found : key = (List.range stop).map (l.getD · 32) ++ [(l.getD stop 32 + r.getD stop 126) / 2]

theorem walked_of_unitsFrom (left : Printable l) (right : Printable r) {steps i : Nat}
    (found : unitsFrom l r steps i ((range i).map (l.getD · 32)) = some key) :
    ∃ stop < i + steps, Walked l r stop key := by
  induction steps generalizing i with
  | zero => cases found
  | succ steps ih =>
    rw [unitsFrom, gap, unitOr_eq 32 left, unitOr_eq 126 right] at found
    split at found
    · rename_i isOpen
      cases found
      exact ⟨i, by omega, by simpa using isOpen, rfl⟩
    · have next : (range (i + 1)).map (l.getD · 32) =
          (range i).map (l.getD · 32) ++ [l.getD i 32] := by simp [range_succ]
      rw [← next] at found
      obtain ⟨stop, below, walked⟩ := ih found
      exact ⟨stop, by omega, walked⟩

theorem unitsFrom_ne_none {steps i : Nat} (start : List Nat) (from_ : i ≤ stop)
    (below : stop < i + steps) (isOpen : gap l r stop) : unitsFrom l r steps i start ≠ none := by
  induction steps generalizing i start with
  | zero => omega
  | succ steps ih =>
    rw [unitsFrom]
    split
    · simp
    rename_i closed
    have later : i ≠ stop := by
      rintro rfl
      exact closed isOpen
    exact ih _ (by omega) (by omega)

theorem append_lt_append {start rest rest' : List Nat} {u v : Nat} (less : u < v) :
    start ++ u :: rest < start ++ v :: rest' := by
  induction start with
  | nil => exact cons_lt_cons_iff.2 (.inl less)
  | cons w start ih => exact cons_lt_cons_iff.2 (.inr ⟨rfl, ih⟩)

theorem lt_append_cons (start rest : List Nat) (u : Nat) : start < start ++ u :: rest := by
  induction start with
  | nil => exact nil_lt_cons _ _
  | cons w start ih => exact cons_lt_cons_iff.2 (.inr ⟨rfl, ih⟩)

theorem range_map_getD (key : List Nat) (n missing : Nat) :
    (range n).map (key.getD · missing) =
      key.take n ++ replicate (n - key.length) missing := by
  refine ext_getElem (by simp; omega) fun i inside _ => ?_
  simp only [length_map, length_range] at inside
  simp only [getElem_append, length_take]
  split
  · rename_i short
    simp [getElem?_eq_getElem (show i < key.length by omega)]
  · rename_i long
    simp [getElem?_eq_none (show key.length ≤ i by omega)]

theorem Walked.above {stop : Nat} (walked : Walked l r stop key) : l < key := by
  rw [walked.found, range_map_getD]
  rcases Nat.lt_or_ge stop l.length with inside | past
  · rw [Nat.sub_eq_zero_of_le inside.le, replicate_zero, append_nil]
    have split := (take_append_drop stop l).symm
    rw [drop_eq_getElem_cons inside] at split
    have isOpen := walked.open_
    rw [getD_eq_getElem _ _ inside] at isOpen
    conv => lhs; rw [split]
    refine append_lt_append ?_
    rw [getD_eq_getElem _ _ inside]
    omega
  · rw [take_of_length_le past]
    cases fill : replicate (stop - l.length) 32 with
    | nil => simpa using lt_append_cons l [] _
    | cons u fill => simpa using lt_append_cons l _ u

/-- Where two keys part: the greater one does not end in a space, so that it parts from the
smaller one even when that is filled up with spaces. -/
theorem parts_of_lt (right : Printable r) (trimmed : r.getLast? ≠ some 32) (less : l < r) :
    ∃ i < r.length, (∀ j < i, l.getD j 32 = r.getD j 126) ∧ l.getD i 32 < r.getD i 126 := by
  induction r generalizing l with
  | nil => exact absurd less (not_lt_nil l)
  | cons v r ih =>
    have tail (l' : List Nat) (rest : l' < r) :
        ∃ i < r.length, (∀ j < i, l'.getD j 32 = r.getD j 126) ∧ l'.getD i 32 < r.getD i 126 := by
      cases r with
      | nil => exact absurd rest (not_lt_nil l')
      | cons w r =>
        exact ih (fun u mem => right u (by simp [mem])) (by simpa using trimmed) rest
    have step (u : Nat) (l' : List Nat) (less : u < v ∨ u = v ∧ l' < r) :
        ∃ i < r.length + 1, (∀ j < i, (u :: l').getD j 32 = (v :: r).getD j 126) ∧
          (u :: l').getD i 32 < (v :: r).getD i 126 := by
      rcases less with less | ⟨rfl, rest⟩
      · exact ⟨0, by omega, by omega, less⟩
      · obtain ⟨i, inside, same, less⟩ := tail l' rest
        refine ⟨i + 1, by omega, fun j below => ?_, less⟩
        cases j with
        | zero => rfl
        | succ j => exact same j (by omega)
    cases l with
    | nil =>
      have low := (right v (by simp)).1
      obtain ⟨i, inside, same, less⟩ := step 32 [] (by
        rcases Nat.lt_or_ge 32 v with above | least
        · exact .inl above
        · obtain rfl : 32 = v := by omega
          cases r with
          | nil => simp at trimmed
          | cons w r => exact .inr ⟨rfl, nil_lt_cons _ _⟩)
      have filled (j : Nat) : ([] : List Nat).getD j 32 = [32].getD j 32 := by
        cases j <;> simp
      exact ⟨i, inside, fun j below => (filled j).trans (same j below), by rwa [filled i]⟩
    | cons u l => exact step u l (cons_lt_cons_iff.1 less)

theorem Walked.below (walked : Walked l r stop key) (right : Printable r)
    (trimmed : r.getLast? ≠ some 32) (less : l < r) : key < r := by
  obtain ⟨i, inside, same, less⟩ := parts_of_lt right trimmed less
  have split (n : Nat) (at_ : n < r.length) : r = r.take n ++ r.getD n 126 :: r.drop (n + 1) := by
    rw [getD_eq_getElem _ _ at_, ← drop_eq_getElem_cons at_, take_append_drop]
  have begins (n : Nat) (upTo : n ≤ i) : (range n).map (l.getD · 32) = r.take n := by
    rw [map_congr_left fun j mem => same j (by have := mem_range.1 mem; omega),
      range_map_getD, Nat.sub_eq_zero_of_le (by omega), replicate_zero, append_nil]
  have isOpen := walked.open_
  rcases Nat.lt_or_ge i stop with before | atGap
  · -- The keys part before the gap, and the walk has copied the smaller unit there.
    obtain ⟨more, rfl⟩ : ∃ more, stop = i + 1 + more := ⟨stop - (i + 1), by omega⟩
    rw [walked.found, range_add, range_succ, map_append, map_append,
      begins i le_rfl]
    conv => rhs; rw [split i inside]
    simpa using append_lt_append less
  · rw [walked.found, begins stop atGap]
    conv => rhs; rw [split stop (by omega)]
    refine append_lt_append ?_
    omega

theorem Walked.printable (walked : Walked l r stop key) (left : Printable l)
    (right : Printable r) : Printable key ∧ key.getLast? ≠ some 32 ∧ key.length = stop + 1 := by
  have low := getD_printable left (by omega) (by omega : 32 ≤ 126) stop
  have high := getD_printable right (by omega : 32 ≤ 126) (by omega) stop
  have isOpen := walked.open_
  rw [walked.found]
  refine ⟨fun u mem => ?_, ?_, by simp⟩
  · rcases mem_append.1 mem with mem | mem
    · obtain ⟨i, -, rfl⟩ := mem_map.1 mem
      exact getD_printable left (by omega) (by omega) i
    · cases mem_singleton.1 mem
      omega
  · rw [getLast?_concat]
    intro same
    have := Option.some.inj same
    omega

end Units

section Keys

/-- A text over U+0020..U+007E that does not end in a space. -/
structure IsKey (s : String) : Prop where
  printable : ∀ c ∈ s.toList, 0x20 ≤ c.toNat ∧ c.toNat ≤ 0x7E
  trimmed : s.toList.getLast? ≠ some ' '

def codes (s : String) : List Nat := s.toList.map toNat

theorem lt_iff_codes {t : String} : s < t ↔ codes s < codes t := by
  rw [String.lt_iff_toList_lt, codes, codes]
  generalize s.toList = l, t.toList = m
  induction l generalizing m with
  | nil => cases m <;> simp
  | cons c l ih =>
    cases m with
    | nil => simp
    | cons d m =>
      have order : c < d ↔ c.toNat < d.toNat := Iff.rfl
      simp [cons_lt_cons_iff, ih, order, toNat_inj]

theorem IsKey.codes (isKey : IsKey s) : Printable (codes s) := by
  intro u mem
  obtain ⟨c, inside, rfl⟩ := mem_map.1 mem
  exact isKey.printable c inside

theorem getLast?_codes : (codes s).getLast? = some 32 ↔ s.toList.getLast? = some ' ' := by
  rw [codes, getLast?_map]
  cases s.toList.getLast? with
  | none => simp
  | some c => simpa using toNat_inj (c := c) (d := ' ')

theorem encodeUtf16_key (isKey : IsKey s) : encodeUtf16 s = codes s := by
  rw [codes, map_eq_flatMap]
  refine flatMap_congr fun c mem => ?_
  have := isKey.printable c mem
  simp only [utf16]
  rw [if_pos (by omega)]

theorem codes_ofList {key : List Nat} (printable : Printable key) :
    codes (String.ofList (key.map ofNat)) = key := by
  rw [codes, String.toList_ofList, map_map]
  conv => rhs; rw [← map_id key]
  refine map_congr_left fun u mem => ?_
  have := printable u mem
  rw [Function.comp, ofNat, dif_pos (.inl (by omega))]
  rfl

theorem isKey_of_codes (printable : Printable (codes s))
    (trimmed : (codes s).getLast? ≠ some 32) : IsKey s :=
  ⟨fun _ mem => printable _ (mem_map_of_mem mem), mt getLast?_codes.2 trimmed⟩

variable {left right : Option String}

/-- The two neighbours of a place: keys of at most so many characters, the second not empty, in
order. -/
structure Neighbours (longest : Nat) (left right : Option String) : Prop where
  before : ∀ l ∈ left, IsKey l ∧ l.length ≤ longest
  after : ∀ r ∈ right, IsKey r ∧ r.length ≤ longest ∧ r ≠ ""
  ordered : ∀ l ∈ left, ∀ r ∈ right, l < r

/-- A text that stands between two neighbours, and may itself be one. -/
structure Between (left right : Option String) (key : String) : Prop where
  isKey : IsKey key
  short : key.length ≤ maxKeySteps
  above : ∀ l ∈ left, l < key
  below : ∀ r ∈ right, key < r

theorem keyBetween_eq_some : keyBetween left right = some key ↔
    tryBetween (left.getD "") right = some key ∧ (∀ l ∈ left, l < key) ∧ (∀ r ∈ right, key < r) ∧
      key.length ≤ maxKeySteps := by
  rw [keyBetween]
  cases left <;> cases right <;> simp [and_assoc]

theorem isKey_empty : IsKey "" := ⟨by simp, by simp⟩

variable {longest : Nat}

section Between

variable (neighbours : Neighbours longest left right)

include neighbours

theorem Neighbours.isKey_left : IsKey (left.getD "") := by
  cases left with
  | none => exact isKey_empty
  | some l => exact (neighbours.before l rfl).1

/-- The units of the second key, none where it is absent. -/
def unitsAfter (right : Option String) : List Nat := right.elim [] Agent.codes

theorem Neighbours.printable_right :
    Printable (unitsAfter right) := by
  cases right with
  | none => simp [unitsAfter, Printable]
  | some r => exact (neighbours.after r rfl).1.codes

theorem Neighbours.units_eq :
    units (left.getD "") right =
      (unitsFrom (codes (left.getD "")) (unitsAfter right) maxKeySteps 0 []).getD
        (codes (left.getD "") ++ [80]) := by
  have same : right.elim [] encodeUtf16 = unitsAfter right := by
    cases right with
    | none => rfl
    | some r => exact encodeUtf16_key (neighbours.after r rfl).1
  rw [units, same, encodeUtf16_key neighbours.isKey_left]
  rfl

end Between

/-- The text of printable units, not ending in a space. -/
theorem tryBetween_of_units {l : String} {key : List Nat} (found : units l right = key)
    (printable : Printable key) (trimmed : key.getLast? ≠ some 32) :
    ∃ s, tryBetween l right = some s ∧ codes s = key ∧ IsKey s ∧ s.length = key.length := by
  have read := codes_ofList printable
  refine ⟨_, by rw [tryBetween, found, fromUtf16_printable printable]; rfl, read, ?_, by simp⟩
  exact isKey_of_codes (by rwa [read]) (by rwa [read])

theorem keyBetween_of_short (neighbours : Neighbours (maxKeySteps - 1) left right) :
    ∃ key, keyBetween left right = some key ∧ Between left right key := by
  have printable := neighbours.isKey_left.codes
  have roomLeft : (codes (left.getD "")).length < maxKeySteps := by
    cases left with
    | none => simp [codes, maxKeySteps]
    | some l =>
      have := (neighbours.before l rfl).2
      simp only [codes, length_map, String.length_toList, Option.getD_some, maxKeySteps] at *
      omega
  have roomRight : (unitsAfter right).length < maxKeySteps := by
    cases right with
    | none => simp [unitsAfter, maxKeySteps]
    | some r =>
      have := (neighbours.after r rfl).2.1
      simp only [unitsAfter, Option.elim, codes, length_map, String.length_toList, maxKeySteps] at *
      omega
  have isOpen : gap (codes (left.getD "")) (unitsAfter right) 199 := by
    simp only [maxKeySteps] at roomLeft roomRight
    rw [gap, unitOr_eq 32 printable, unitOr_eq 126 neighbours.printable_right,
      getD_eq_default _ _ (by omega), getD_eq_default _ _ (by omega)]
    decide
  obtain ⟨key, found⟩ := Option.ne_none_iff_exists'.1 <|
    unitsFrom_ne_none [] (Nat.zero_le 199) (by decide : 199 < 0 + maxKeySteps) isOpen
  obtain ⟨stop, below, walked⟩ := walked_of_unitsFrom printable neighbours.printable_right
    (i := 0) found
  obtain ⟨isPrintable, trimmed, length⟩ := walked.printable printable neighbours.printable_right
  obtain ⟨s, made, same, isKey, long⟩ := tryBetween_of_units
    (neighbours.units_eq.trans (by rw [found]; rfl)) isPrintable trimmed
  have short : s.length ≤ maxKeySteps := by omega
  have above : ∀ l ∈ left, l < s := by
    rintro l rfl
    exact lt_iff_codes.2 (same ▸ walked.above)
  have under : ∀ r ∈ right, s < r := by
    rintro r rfl
    obtain ⟨rightKey, -, some_⟩ := neighbours.after r rfl
    refine lt_iff_codes.2 (same ▸ walked.below rightKey.codes (mt getLast?_codes.1 rightKey.trimmed) ?_)
    cases left with
    | none =>
      cases chars : r.toList with
      | nil => exact absurd (String.toList_eq_nil_iff.1 chars) some_
      | cons c rest => simp [codes, unitsAfter, chars]
    | some l => exact lt_iff_codes.1 (neighbours.ordered l rfl r rfl)
  exact ⟨s, keyBetween_eq_some.2 ⟨made, above, under, short⟩, isKey, short, above, under⟩

/-- Every key found is one of the same kind, also next to a key of the greatest length. -/
theorem between_of_keyBetween (neighbours : Neighbours maxKeySteps left right)
    (found : keyBetween left right = some key) : Between left right key ∧ key ≠ "" := by
  obtain ⟨made, above, under, short⟩ := keyBetween_eq_some.1 found
  have printable := neighbours.isKey_left.codes
  have fits : Printable (units (left.getD "") right) ∧
      (units (left.getD "") right).getLast? ≠ some 32 ∧ units (left.getD "") right ≠ [] := by
    rw [neighbours.units_eq]
    cases walk : unitsFrom (codes (left.getD "")) (unitsAfter right) maxKeySteps 0 [] with
    | none =>
      refine ⟨fun u mem => ?_, by simp, by simp⟩
      rcases mem_append.1 mem with mem | mem
      · exact printable u mem
      · cases mem_singleton.1 mem
        omega
    | some units =>
      obtain ⟨stop, -, walked⟩ := walked_of_unitsFrom printable neighbours.printable_right
        (i := 0) walk
      obtain ⟨isPrintable, trimmed, length⟩ := walked.printable printable neighbours.printable_right
      exact ⟨isPrintable, trimmed, ne_nil_of_length_eq_add_one length⟩
  obtain ⟨s, same, codes, isKey, long⟩ := tryBetween_of_units rfl fits.1 fits.2.1
  obtain rfl : s = key := Option.some.inj (same.symm.trans made)
  refine ⟨⟨isKey, short, above, under⟩, ?_⟩
  rintro rfl
  exact fits.2.2 codes.symm

end Keys

section Insertions

/-- The lists of keys that insertions make out of the empty list. -/
inductive Grown : List String → Prop
  | empty : Grown []
  | insert {before after : List String} {key : String} : Grown (before ++ after) →
    keyBetween before.getLast? after.head? = some key → Grown (before ++ key :: after)

structure Ordered (keys : List String) : Prop where
  increasing : keys.Pairwise (· < ·)
  all : ∀ key ∈ keys, IsKey key ∧ key.length ≤ maxKeySteps ∧ key ≠ ""

variable {before after : List String}

theorem Ordered.neighbours (ordered : Ordered (before ++ after)) :
    Neighbours maxKeySteps before.getLast? after.head? := by
  refine ⟨fun l last => ?_, fun r first => ?_, fun l last r first => ?_⟩
  · obtain ⟨isKey, short, -⟩ := ordered.all l (by simp [mem_of_getLast? last])
    exact ⟨isKey, short⟩
  · exact ordered.all r (by simp [mem_of_head? first])
  · exact (pairwise_append.1 ordered.increasing).2.2 l (mem_of_getLast? last) r
      (mem_of_head? first)

theorem Ordered.insert (ordered : Ordered (before ++ after))
    (found : keyBetween before.getLast? after.head? = some key) :
    Ordered (before ++ key :: after) := by
  obtain ⟨between, some_⟩ := between_of_keyBetween ordered.neighbours found
  obtain ⟨increasingBefore, increasingAfter, apart⟩ := pairwise_append.1 ordered.increasing
  have above : ∀ l ∈ before, l < key := by
    intro l mem
    obtain ⟨start, last, rfl⟩ := (eq_nil_or_concat' before).resolve_left (ne_nil_of_mem mem)
    have here := between.above last (by simp)
    rcases mem_append.1 mem with mem | mem
    · exact ((pairwise_append.1 increasingBefore).2.2 l mem last (by simp)).trans here
    · exact mem_singleton.1 mem ▸ here
  have under : ∀ r ∈ after, key < r := by
    intro r mem
    cases after with
    | nil => simp at mem
    | cons first rest =>
      have here := between.below first rfl
      rcases mem_cons.1 mem with rfl | mem
      · exact here
      · exact here.trans ((pairwise_cons.1 increasingAfter).1 r mem)
  refine ⟨pairwise_append.2 ⟨increasingBefore, pairwise_cons.2 ⟨under, increasingAfter⟩, ?_⟩, ?_⟩
  · intro l mem r mem'
    rcases mem_cons.1 mem' with rfl | mem'
    · exact above l mem
    · exact apart l mem r mem'
  · intro k mem
    rcases mem_append.1 mem with mem | mem
    · exact ordered.all k (by simp [mem])
    · rcases mem_cons.1 mem with rfl | mem
      · exact ⟨between.isKey, between.short, some_⟩
      · exact ordered.all k (by simp [mem])

theorem ordered_of_grown {keys : List String} (grown : Grown keys) : Ordered keys := by
  induction grown with
  | empty => exact ⟨.nil, by simp⟩
  | insert _ found ih => exact ih.insert found

/-- There is room between keys of fewer than 200 characters, and insertion after insertion keeps
a list in order and stops only next to a key of 200. -/
theorem keys_run_out_at_full_length :
    (∀ left right, Neighbours (maxKeySteps - 1) left right →
      ∃ key, keyBetween left right = some key ∧ Between left right key) ∧
    ∀ before after, Grown (before ++ after) → (before ++ after).Pairwise (· < ·) ∧
      (keyBetween before.getLast? after.head? = none →
        ∃ key, (key ∈ before.getLast? ∨ key ∈ after.head?) ∧ key.length = maxKeySteps) := by
  refine ⟨fun left right => keyBetween_of_short, fun before after grown => ?_⟩
  have ordered := ordered_of_grown grown
  refine ⟨ordered.increasing, fun failed => ?_⟩
  by_contra shorter
  push Not at shorter
  have neighbours := ordered.neighbours
  have short : Neighbours (maxKeySteps - 1) before.getLast? after.head? :=
    ⟨fun l last => ⟨(neighbours.before l last).1, by
        have := (neighbours.before l last).2
        have := shorter l (.inl last)
        omega⟩,
      fun r first => ⟨(neighbours.after r first).1, by
        have := (neighbours.after r first).2.1
        have := shorter r (.inr first)
        omega, (neighbours.after r first).2.2⟩,
      neighbours.ordered⟩
  obtain ⟨key, found, -⟩ := keyBetween_of_short short
  rw [failed] at found
  contradiction

theorem key_between_a_and_b : keyBetween (some "a") (some "b") = some "aO" ∧
    ∃ key, keyBetween (some "a") (some "b") = some key ∧ Between (some "a") (some "b") key := by
  refine ⟨by decide +kernel, keys_run_out_at_full_length.1 _ _ ⟨?_, ?_, ?_⟩⟩
  · rintro _ ⟨⟩
    exact ⟨⟨by simp, by decide⟩, by decide⟩
  · rintro _ ⟨⟩
    exact ⟨⟨by simp, by decide⟩, by decide, by decide⟩
  · rintro _ ⟨⟩ _ ⟨⟩
    decide

end Insertions

end Dynodoc.Agent
