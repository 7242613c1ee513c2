import Mathlib.Data.List.Cycle

/-! Cycles of a relation, written down from their smallest element. -/
namespace Cycles
open List

variable {ν : Type} {r : ν → ν → Prop} {c d : List ν}

variable {x : ν} {path : List ν}

/-- The elements of a cycle in turn, each of them once. -/
structure IsCycle (r : ν → ν → Prop) (c : List ν) : Prop where
  some : c ≠ []
  distinct : c.Nodup
  chain : Cycle.Chain r c

theorem IsCycle.turn (cycle : IsCycle r c) (turned : c.IsRotated d) : IsCycle r d := by
  refine ⟨fun none => cycle.some ?_, turned.nodup_iff.1 cycle.distinct, ?_⟩
  · rw [none] at turned
    exact isRotated_nil_iff.1 turned
  · rw [← Cycle.coe_eq_coe.2 turned]
    exact cycle.chain

theorem IsCycle.transGen (cycle : IsCycle r c) {a b : ν} (mem : a ∈ c) (mem' : b ∈ c) :
    Relation.TransGen r a b :=
  Cycle.chain_iff_pairwise.1 (cycle.chain.imp fun _ _ => .single) a mem b mem'

/-- The part of a path from an element on to which an edge leads back from the end. -/
theorem isCycle_drop [DecidableEq ν] (distinct : path.Nodup)
    (chain : path.IsChain r) {first last : ν} (mem : first ∈ path)
    (ends : path.getLast? = some last) (closes : r last first) :
    IsCycle r (path.drop (path.idxOf first)) := by
  have within := idxOf_lt_length_iff.2 mem
  have starts : (path.drop (path.idxOf first)).head? = some first := by
    rw [head?_drop, getElem?_idxOf mem]
  obtain ⟨rest, cut⟩ := head?_eq_some_iff.1 starts
  refine ⟨by simp [cut], distinct.sublist (drop_sublist _ _), ?_⟩
  rw [cut, Cycle.chain_coe_cons, ← cons_append, ← cut, isChain_append]
  refine ⟨chain.drop _, .singleton _, ?_⟩
  rw [getLast?_drop, if_neg (by omega), ends]
  rintro _ ⟨⟩ _ ⟨⟩
  exact closes

theorem IsCycle.from_mem (cycle : IsCycle r c) (mem : x ∈ c) :
    ∃ l, c.IsRotated (x :: l) ∧ (x :: (l ++ [x])).IsChain r := by
  obtain ⟨s, t, rfl⟩ := append_of_mem mem
  have chain := (cycle.turn (d := x :: (t ++ s)) isRotated_append).chain
  exact ⟨t ++ s, isRotated_append, (Cycle.chain_coe_cons ..).1 chain⟩

theorem IsCycle.next (cycle : IsCycle r c) (mem : x ∈ c) : ∃ y ∈ c, r x y := by
  obtain ⟨l, turned, chain⟩ := cycle.from_mem mem
  cases l with
  | nil => exact ⟨x, mem, isChain_cons_cons.1 chain |>.1⟩
  | cons y l => exact ⟨y, turned.mem_iff.2 (by simp), isChain_cons_cons.1 chain |>.1⟩

section Unique

variable (unique : ∀ a b b', r a b → r a b' → b = b')

include unique

theorem eq_of_isChain {a : ν} {l l' : List ν} (chain : (a :: (l ++ [x])).IsChain r)
    (chain' : (a :: (l' ++ [x])).IsChain r) (outside : x ∉ l) (outside' : x ∉ l') : l = l' := by
  induction l generalizing a l' with
  | nil =>
    cases l' with
    | nil => rfl
    | cons b l' =>
      have same := unique a x b (isChain_cons_cons.1 chain).1 (isChain_cons_cons.1 chain').1
      exact absurd (by simp [same]) outside'
  | cons b l ih =>
    obtain ⟨first, chain⟩ := isChain_cons_cons.1 chain
    cases l' with
    | nil => exact absurd (by simp [unique a x b (isChain_cons_cons.1 chain').1 first]) outside
    | cons b' l' =>
      obtain ⟨first', chain'⟩ := isChain_cons_cons.1 chain'
      obtain rfl := unique a b b' first first'
      rw [ih chain chain' (fun mem => outside (by simp [mem])) fun mem => outside' (by simp [mem])]

/-- Two cycles of a function that meet are one. -/
theorem IsCycle.isRotated (cycle : IsCycle r c) (cycle' : IsCycle r d) (mem : x ∈ c)
    (mem' : x ∈ d) : c.IsRotated d := by
  obtain ⟨l, turned, chain⟩ := cycle.from_mem mem
  obtain ⟨l', turned', chain'⟩ := cycle'.from_mem mem'
  have outside := (nodup_cons.1 (cycle.turn turned).distinct).1
  rw [eq_of_isChain unique chain chain' outside (nodup_cons.1 (cycle'.turn turned').distinct).1] at turned
  exact turned.trans turned'.symm

/-- Whoever follows a path from an element of a cycle stays on the cycle. -/
theorem IsCycle.last_mem (cycle : IsCycle r c) (chain : path.IsChain r) {last : ν}
    (mem : x ∈ path) (inside : x ∈ c) (ends : last ∈ path.getLast?) : last ∈ c := by
  induction path generalizing x with
  | nil => contradiction
  | cons a path ih =>
    cases path with
    | nil =>
      cases ends
      exact mem_singleton.1 mem ▸ inside
    | cons b path =>
      obtain ⟨first, rest⟩ := isChain_cons_cons.1 chain
      rcases mem_cons.1 mem with rfl | mem
      · obtain ⟨y, inside', link⟩ := cycle.next inside
        exact ih rest mem_cons_self (unique x b y first link ▸ inside') ends
      · exact ih rest mem inside ends

end Unique

variable [Ord ν]

structure Canonical (r : ν → ν → Prop) (c : List ν) : Prop extends IsCycle r c where
  least : ∀ first ∈ c.head?, ∀ x ∈ c, (compare first x).isLE

theorem Canonical.eq_of_isRotated [Std.TransOrd ν] [Std.LawfulEqOrd ν] (canonical : Canonical r c)
    (canonical' : Canonical r d) (turned : c.IsRotated d) : c = d := by
  obtain ⟨n, rfl⟩ := turned
  have within : n % c.length < c.length := Nat.mod_lt _ (length_pos_iff.2 canonical.some)
  have starts : (c.rotate n).head? = (c)[n % c.length]? := by
    rw [← rotate_mod, head?_rotate within]
  obtain ⟨first, rest, rfl⟩ := exists_cons_of_ne_nil canonical.some
  have same : first = (first :: rest)[n % (first :: rest).length] := by
    have mem := getElem_mem within
    rw [getElem?_eq_getElem within] at starts
    refine Std.compare_eq_iff_eq.1 (Std.OrientedCmp.isLE_antisymm ?_ ?_)
    · exact canonical.least first rfl _ mem
    · exact canonical'.least _ starts first (mem_rotate.2 mem_cons_self)
  have none : 0 = n % (first :: rest).length := by
    rw [← getElem?_inj (by simp) canonical.distinct, getElem?_eq_getElem within, ← same]
    rfl
  rw [← rotate_mod, ← none, rotate_zero]

end Cycles
