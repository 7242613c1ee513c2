import Mathlib.Data.List.Induction
import Mathlib.Data.List.Perm.Subperm
import Mathlib.Data.String.Basic

/-! Facts about ordered maps that the standard library states through comparison
results, restated through equality of keys. -/
namespace OrderedMap
open Std List ExtTreeMap

variable {α β γ : Type} [Ord α] [TransOrd α]

variable {m : ExtTreeMap α (List β)} {l : List β} {key : α}

theorem getElem?_eq_none_iff {m : ExtTreeMap α β} : m[key]? = none ↔ key ∉ m := by
  rw [ExtTreeMap.mem_iff_isSome_getElem?, Option.not_isSome_iff_eq_none]

theorem mem_iff_exists {m : ExtTreeMap α β} : key ∈ m ↔ ∃ v, m[key]? = some v := by
  rw [mem_iff_isSome_getElem?, Option.isSome_iff_exists]

/-- What has been gathered under a key; nothing under a key that is absent. -/
def gathered (m : ExtTreeMap α (List β)) (key : α) : List β := m[key]?.getD []

/-- Every key present has something gathered under it. -/
def Solid (m : ExtTreeMap α (List β)) : Prop :=
  ∀ (key : α) (l : List β), m[key]? = some l → l ≠ []

theorem solid_empty : Solid (∅ : ExtTreeMap α (List β)) := by
  intro key l found
  contradiction

theorem getElem?_of_gathered (some : gathered m key ≠ []) :
    m[key]? = .some (gathered m key) := by
  rw [gathered] at some ⊢
  cases found : m[key]? with
  | none =>
    rw [found] at some
    exact absurd rfl some
  | some l => rfl

variable [LawfulEqOrd α]

theorem getElem?_ofList {l : List (α × β)} (distinct : (l.map Prod.fst).Nodup) {v : β} :
    (ofList l)[key]? = some v ↔ (key, v) ∈ l := by
  have apart : l.Pairwise fun a b => ¬ compare a.1 b.1 = .eq :=
    (pairwise_map.1 distinct).imp fun ne => mt Std.compare_eq_iff_eq.1 ne
  have found {v : β} (mem : (key, v) ∈ l) : (ofList l)[key]? = some v :=
    getElem?_ofList_of_mem Std.ReflCmp.compare_self apart mem
  refine ⟨fun known => ?_, found⟩
  have mem : key ∈ ofList l := of_getElem?_eq_some known
  classical
  rw [mem_ofList] at mem
  obtain ⟨⟨_, v'⟩, listed, rfl⟩ := mem_map.1 (contains_iff_mem.1 mem)
  rw [found listed] at known
  cases known
  exact listed

/-- A fold that inserts what is new builds the map of a list without repeats. -/
theorem foldlM_insert {ε : Type} {f : ExtTreeMap α β → β → Except ε (ExtTreeMap α β)} (key : β → α)
    (step : ∀ m, ∀ b ∈ l, key b ∉ m → f m b = .ok (m.insert (key b) b)) (distinct : (l.map key).Nodup) :
    l.foldlM f ∅ = Except.ok (ofList (l.map fun b => (key b, b))) := by
  have go (m : ExtTreeMap α β) (new : ∀ b ∈ l, key b ∉ m) :
      l.foldlM f m = Except.ok (l.foldl (fun m b => m.insert (key b) b) m) := by
    induction l generalizing m with
    | nil => rfl
    | cons b l ih =>
      obtain ⟨apart, distinct⟩ := nodup_cons.1 distinct
      rw [foldlM_cons, step m b (by simp) (new b (by simp))]
      refine ih (fun m c mem => step m c (mem_cons_of_mem _ mem)) distinct _ fun c mem => ?_
      rw [mem_insert]
      rintro (same | old)
      · exact apart (Std.compare_eq_iff_eq.1 same ▸ mem_map_of_mem mem)
      · exact new c (mem_cons_of_mem _ mem) old
  rw [go ∅ fun b _ => not_mem_empty, ofList_eq_foldl, foldl_map]

theorem length_le_size {m : ExtTreeMap α β} {keys : List α} (distinct : keys.Nodup)
    (within : ∀ key ∈ keys, key ∈ m) : keys.length ≤ m.size := by
  have sub : keys ⊆ m.keys := fun key mem => mem_keys.2 (within key mem)
  calc keys.length ≤ m.keys.length := (subperm_of_subset distinct sub).length_le
    _ = m.size := length_keys

variable [DecidableEq α]

section

variable (m : ExtTreeMap α β)

@[simp] theorem getElem?_insert (key other : α) (v : β) :
    (m.insert key v)[other]? = if other = key then some v else m[other]? := by
  rw [ExtTreeMap.getElem?_insert]
  exact if_congr (Std.compare_eq_iff_eq.trans eq_comm) rfl rfl

@[simp] theorem getElem?_erase (key other : α) :
    (m.erase key)[other]? = if other = key then none else m[other]? := by
  rw [ExtTreeMap.getElem?_erase]
  exact if_congr (Std.compare_eq_iff_eq.trans eq_comm) rfl rfl

theorem getElem?_insertIfNew (key other : α) (v : β) :
    (m.insertIfNew key v)[other]? = if other = key then some (m[key]?.getD v) else m[other]? := by
  rw [ExtTreeMap.getElem?_insertIfNew]
  by_cases same : other = key
  · subst same
    by_cases known : other ∈ m
    · simp [known]
    · simp [known]
  · simp [same, Ne.symm same]

end

def extendAt (m : ExtTreeMap α (List β)) (key : α) (l : List β) : ExtTreeMap α (List β) :=
  m.insert key (m[key]?.getD [] ++ l)

theorem gathered_extendAt (m : ExtTreeMap α (List β)) (key other : α) (l : List β) :
    gathered (extendAt m key l) other = gathered m other ++ if other = key then l else [] := by
  rw [gathered, extendAt, getElem?_insert]
  by_cases same : other = key
  · rw [if_pos same, if_pos same, same]
    rfl
  · rw [if_neg same, if_neg same, append_nil]
    rfl

theorem Solid.extendAt (solid : Solid m) (key : α) (some : l ≠ []) : Solid (extendAt m key l) := by
  intro other gathered found
  rw [OrderedMap.extendAt, getElem?_insert] at found
  by_cases same : other = key
  · rw [if_pos same] at found
    cases found
    exact append_ne_nil_of_right_ne_nil _ some
  · rw [if_neg same] at found
    exact solid other gathered found

section Index

variable (name : γ → Option α) (item : γ → β)

def indexStep (m : ExtTreeMap α (List β)) (entry : γ) : ExtTreeMap α (List β) :=
  match name entry with
  | some key => extendAt m key [item entry]
  | none => m

/-- The items of a list, gathered under their names. -/
def index (l : List γ) : ExtTreeMap α (List β) := l.foldl (indexStep name item) ∅

variable {name item} {key : α} {l : List γ}

theorem gathered_index : gathered (index name item l) key =
    (l.filter fun entry => name entry = some key).map item := by
  induction l using List.reverseRecOn with
  | nil => simp [index, gathered]
  | append_singleton l entry ih =>
    rw [index] at ih ⊢
    rw [foldl_append, foldl_cons, foldl_nil, indexStep, filter_append, map_append, ← ih]
    cases named : name entry with
    | none => simp [named]
    | some other =>
      rw [gathered_extendAt]
      by_cases same : key = other
      · simp [named, same]
      · simp [named, same, Ne.symm same]

theorem solid_index : Solid (index name item l) := by
  induction l using List.reverseRecOn with
  | nil => exact solid_empty
  | append_singleton l entry ih =>
    rw [index, foldl_append, foldl_cons, indexStep]
    split
    · exact Solid.extendAt ih _ (by simp)
    · exact ih

theorem mem_index : key ∈ index name item l ↔ ∃ entry ∈ l, name entry = some key := by
  have some_iff : key ∈ index name item l ↔ gathered (index name item l) key ≠ [] := by
    rw [mem_iff_exists]
    constructor
    · rintro ⟨items, stored⟩
      rw [gathered, stored]
      exact solid_index key items stored
    · exact fun some => ⟨_, getElem?_of_gathered some⟩
  rw [some_iff, gathered_index]
  simp

variable (item) in
theorem length_index_le :
    (∀ (key : α) (items : List β), (index name item l)[key]? = some items → items.length ≤ 1) ↔
      ∀ key, (l.filter fun entry => name entry = some key).length ≤ 1 := by
  constructor
  · intro few key
    by_contra many
    have some : gathered (index name item l) key ≠ [] := by
      rw [gathered_index]
      rintro empty
      simp [map_eq_nil_iff.1 empty] at many
    have short := few key _ (getElem?_of_gathered some)
    rw [gathered_index, length_map] at short
    exact many short
  · intro few key items stored
    have listed := @gathered_index _ _ _ _ _ _ _ name item key l
    rw [gathered, stored, Option.getD_some] at listed
    rw [listed, length_map]
    exact few key

end Index

end OrderedMap
