import Mathlib.Data.List.Forall2

/-! Binary trees that are built layer by layer, where a layer of odd length gets one node of
padding; and a frontier that takes the leaves one at a time and has the same root. -/

/-- What a tree is made with. -/
structure PaddedTree (α : Type) where
  parent : α → α → α
  pad : α

namespace PaddedTree
open List

variable {α : Type} (T : PaddedTree α)

variable {parts : List (List α)}

/-- The pairs of one layer. -/
def pairs : List α → List (α × α)
  | [] => []
  | [a] => [(a, T.pad)]
  | a :: b :: rest => (a, b) :: pairs rest

def parents (full : List (α × α)) : List α := full.map fun p => T.parent p.1 p.2

def layer (nodes : List α) : List α := T.parents (T.pairs nodes)

theorem length_layer (nodes : List α) : (T.layer nodes).length = (nodes.length + 1) / 2 := by
  rw [layer, parents, length_map]
  fun_induction pairs T nodes with
  | case1 => simp
  | case2 => simp
  | case3 a b rest ih =>
    rw [length_cons, ih, length_cons, length_cons]
    omega

/-- The root of no leaves is the padding. -/
def root : List α → α
  | [] => T.pad
  | [a] => a
  | a :: b :: rest => root (T.layer (a :: b :: rest))
termination_by nodes => nodes.length
decreasing_by
  simp only [length_layer, length_cons]
  omega

/-- The pairs of all layers. -/
def combined : List α → List (α × α)
  | [] => []
  | [_] => []
  | a :: b :: rest => T.pairs (a :: b :: rest) ++ combined (T.layer (a :: b :: rest))
termination_by nodes => nodes.length
decreasing_by
  simp only [length_layer, length_cons]
  omega

section Frontier

/-- A new tree meets the peaks that stand, from the lowest level up. -/
def carry (next : α) : List (Option α) → List (Option α)
  | [] => [some next]
  | none :: above => some next :: above
  | some left :: above => none :: carry (T.parent left next) above

def padUp (right : α) : Nat → α
  | 0 => right
  | levels + 1 => T.parent (padUp right levels) T.pad

/-- The tree to the right of a peak is padded up to the peak's level. -/
def join (state peak : Option α × Nat) : Option α × Nat :=
  match peak.1, state.1 with
  | none, _ => state
  | some left, none => (some left, peak.2)
  | some left, some right => (some (T.parent left (T.padUp right (peak.2 - state.2))), peak.2 + 1)

def frontierRoot (levels : List (Option α)) : α :=
  (levels.zipIdx.foldl T.join (none, 0)).1.getD T.pad

def leaves (full : List (α × α)) : List α := full.flatMap fun p => [p.1, p.2]

/-- At each level the frontier has the node that is left over, and above it the frontier of
the parents of the pairs. -/
inductive Frontier : List α → List (Option α) → Prop
  | nil : Frontier [] []
  | even {full : List (α × α)} {above : List (Option α)} (some : full ≠ [])
      (rest : Frontier (T.parents full) above) : Frontier (leaves full) (none :: above)
  | odd {full : List (α × α)} {above : List (Option α)} (last : α)
      (rest : Frontier (T.parents full) above) : Frontier (leaves full ++ [last]) (some last :: above)

variable {T} {nodes : List α} {levels : List (Option α)} (full : List (α × α))

theorem pairs_leaves (rest : List α) :
    T.pairs (leaves full ++ rest) = full ++ T.pairs rest := by
  induction full with
  | nil => rfl
  | cons p full ih => exact congrArg (p :: ·) ih

theorem root_leaves {full : List (α × α)} (some : full ≠ []) (rest : List α) :
    T.root (leaves full ++ rest) = T.root (T.parents full ++ T.layer rest) := by
  obtain ⟨p, full, rfl⟩ := exists_cons_of_ne_nil some
  rw [layer, parents, parents, ← map_append, ← pairs_leaves]
  exact root.eq_3 T p.1 p.2 _

theorem leaves_concat (left right : α) :
    leaves full ++ [left] ++ [right] = leaves (full ++ [(left, right)]) ++ [] := by
  simp [leaves]

theorem Frontier.carry (front : T.Frontier nodes levels) (next : α) :
    T.Frontier (nodes ++ [next]) (T.carry next levels) := by
  induction front generalizing next with
  | nil => exact @Frontier.odd _ _ [] _ next .nil
  | even some rest ih => exact .odd next rest
  | @odd full above last rest ih =>
    rw [leaves_concat, append_nil]
    refine .even (by simp) ?_
    rw [parents, map_append]
    exact ih (T.parent last next)

/-- The fold over the levels from some height on, with a tree to their right. -/
theorem foldl_join_some (front : T.Frontier nodes levels) {level height : Nat} {right : α}
    (low : height ≤ level) : ((levels.zipIdx level).foldl T.join (some right, height)).1 =
      some (if nodes = [] then right else T.root (nodes ++ [T.padUp right (level - height)])) := by
  induction front generalizing level height right with
  | nil => rfl
  | @even full above some rest ih =>
    have more := @ih (level + 1) height right (by omega)
    rw [if_neg (by simpa [parents] using some), Nat.succ_sub low] at more
    rw [if_neg (by cases full <;> simp_all [leaves]), root_leaves some]
    exact more
  | @odd full above last rest ih =>
    have more := @ih (level + 1) (level + 1) (T.parent last (T.padUp right (level - height))) (by omega)
    rw [if_neg (by simp), leaves_concat, root_leaves (by simp), parents, map_append]
    refine more.trans ?_
    split
    · simp_all [parents, layer, pairs, root]
    · simp [parents, layer, pairs, padUp]

theorem foldl_join_none (front : T.Frontier nodes levels) (level height : Nat) :
    ((levels.zipIdx level).foldl T.join (none, height)).1.getD T.pad = T.root nodes := by
  induction front generalizing level height with
  | nil => simp [root]
  | @even full above some rest ih =>
    rw [← append_nil (leaves full), root_leaves some]
    simpa [layer, parents, pairs, join] using ih (level + 1) height
  | @odd full above last rest ih =>
    change (foldl T.join (some last, level) (above.zipIdx (level + 1))).1.getD T.pad = _
    rw [foldl_join_some rest (show level ≤ level + 1 by omega)]
    by_cases none : full = []
    · simp [none, parents, leaves, root]
    · rw [if_neg (by simpa [parents] using none), root_leaves none, Nat.add_sub_cancel_left]
      rfl

end Frontier

section Binding

/-- Among some pairs a parent determines its pair, and no parent is a leaf or the padding. -/
structure Binding (leaf : α → Prop) (known : List (α × α)) : Prop where
  inj : ∀ p ∈ known, ∀ q ∈ known, T.parent p.1 p.2 = T.parent q.1 q.2 → p = q
  inner : ∀ p ∈ known, T.parent p.1 p.2 ≠ T.pad ∧ ¬ leaf (T.parent p.1 p.2)
  leaf_ne : ∀ a, leaf a → a ≠ T.pad

/-- The leaves below a node of some height. -/
def Expands (leaf : α → Prop) (known : List (α × α)) : Nat → α → List α → Prop
  | 0, a, below => leaf a ∧ below = [a]
  | height + 1, a, below => ∃ p ∈ known, T.parent p.1 p.2 = a ∧ ∃ front back, below = front ++ back ∧
      Expands leaf known height p.1 front ∧ (p.2 = T.pad ∧ back = [] ∨ Expands leaf known height p.2 back)

variable {T} {leaf : α → Prop} {known : List (α × α)} {height : Nat} {nodes nodes' : List α} {a : α}

/-- The nodes of a layer have together the leaves of the layer below. -/
theorem expands_layer (within : T.pairs nodes ⊆ known)
    (below : Forall₂ (T.Expands leaf known height) nodes parts) :
    ∃ parts', Forall₂ (T.Expands leaf known (height + 1)) (T.layer nodes) parts' ∧
      parts'.flatten = parts.flatten := by
  rw [layer]
  fun_induction pairs T nodes generalizing parts with
  | case1 => exact ⟨[], .nil, by cases below; rfl⟩
  | case2 a =>
    obtain ⟨front, _, first, ⟨⟩, rfl⟩ := forall₂_cons_left_iff.1 below
    exact ⟨[front], .cons ⟨_, within mem_cons_self, rfl, front, [], by simp, first,
      .inl ⟨rfl, rfl⟩⟩ .nil, rfl⟩
  | case3 a b rest ih =>
    obtain ⟨front, _, first, next, rfl⟩ := forall₂_cons_left_iff.1 below
    obtain ⟨back, parts, second, more, rfl⟩ := forall₂_cons_left_iff.1 next
    obtain ⟨parts', above, same⟩ := ih (fun p mem => within (mem_cons_of_mem _ mem)) more
    refine ⟨(front ++ back) :: parts', .cons ?_ above, by simp [same]⟩
    exact ⟨_, within mem_cons_self, rfl, front, back, rfl, first, .inr second⟩

theorem expands_root (some : nodes ≠ []) (within : T.combined nodes ⊆ known)
    (below : Forall₂ (T.Expands leaf known height) nodes parts) :
    ∃ top, T.Expands leaf known top (T.root nodes) parts.flatten := by
  fun_induction combined T nodes generalizing height parts with
  | case1 => contradiction
  | case2 a =>
    obtain ⟨front, _, first, ⟨⟩, rfl⟩ := forall₂_cons_left_iff.1 below
    exact ⟨height, by simpa [root] using first⟩
  | case3 a b rest ih =>
    obtain ⟨inPairs, inRest⟩ := append_subset.1 within
    obtain ⟨parts', above, same⟩ := expands_layer inPairs below
    rw [root, ← same]
    exact ih (by simp [layer, parents, pairs]) inRest above

namespace Binding

variable (binding : T.Binding leaf known)
include binding

theorem ne_pad {below : List α} (expands : T.Expands leaf known height a below) : a ≠ T.pad := by
  cases height with
  | zero => exact binding.leaf_ne a expands.1
  | succ height =>
    obtain ⟨p, mem, rfl, -⟩ := expands
    exact (binding.inner p mem).1

theorem expands_unique {other : Nat} {l l' : List α} (expands : T.Expands leaf known height a l)
    (expands' : T.Expands leaf known other a l') : l = l' := by
  induction height generalizing other a l l' with
  | zero =>
    cases other with
    | zero => exact expands.2.trans expands'.2.symm
    | succ other =>
      obtain ⟨p, mem, rfl, -⟩ := expands'
      exact absurd expands.1 (binding.inner p mem).2
  | succ height ih =>
    obtain ⟨p, mem, rfl, front, back, rfl, first, second⟩ := expands
    cases other with
    | zero => exact absurd expands'.1 (binding.inner p mem).2
    | succ other =>
      obtain ⟨q, mem', same, front', back', rfl, first', second'⟩ := expands'
      obtain rfl := binding.inj q mem' p mem same
      rw [ih first first']
      rcases second with ⟨isPad, rfl⟩ | second <;> rcases second' with ⟨isPad', rfl⟩ | second'
      · rfl
      · exact absurd isPad (binding.ne_pad second')
      · exact absurd isPad' (binding.ne_pad second)
      · rw [ih second second']

/-- A root that is not the padding determines the leaves, and the padding is the root of none. -/
theorem root_injective (leaves : ∀ a ∈ nodes, leaf a) (leaves' : ∀ a ∈ nodes', leaf a)
    (within : T.combined nodes ⊆ known) (within' : T.combined nodes' ⊆ known)
    (same : T.root nodes = T.root nodes') : nodes = nodes' := by
  have expands {nodes : List α} (leaves : ∀ a ∈ nodes, leaf a) (within : T.combined nodes ⊆ known)
      (some : nodes ≠ []) : ∃ top, T.Expands leaf known top (T.root nodes) nodes := by
    have single : Forall₂ (T.Expands leaf known 0) nodes (nodes.map ([·])) := by
      rw [forall₂_map_right_iff, forall₂_same]
      exact fun a mem => ⟨leaves a mem, rfl⟩
    have expanded := expands_root some within single
    rwa [← flatMap_def, flatMap_singleton'] at expanded
  have empty {nodes : List α} (leaves : ∀ a ∈ nodes, leaf a) (within : T.combined nodes ⊆ known)
      (isPad : T.root nodes = T.root []) : nodes = [] := by
    by_contra some
    obtain ⟨top, isRoot⟩ := expands leaves within some
    exact binding.ne_pad isRoot (by rw [isPad, root])
  by_cases none : nodes = []
  · rw [none, empty leaves' within' (by rw [← same, none])]
  · by_cases none' : nodes' = []
    · rw [none', empty leaves within (by rw [same, none'])]
    · obtain ⟨top, isRoot⟩ := expands leaves within none
      obtain ⟨top', isRoot'⟩ := expands leaves' within' none'
      rw [← same] at isRoot'
      exact binding.expands_unique isRoot isRoot'

end Binding

end Binding

end PaddedTree
