import Mathlib.Order.WellFounded

/-! Chains of a partial parent function. An element is grounded when every chain upwards
from it ends. -/
namespace Forest
open List Function

variable {α : Type} (up : α → Option α)
variable {a : α} {path : List α} {next : Option α}

def Grounded (a : α) : Prop := Acc (fun parent child => up child = some parent) a

variable {up}

theorem Grounded.root (top : up a = none) : Grounded up a := by
  constructor
  intro parent step
  simp [top] at step

theorem Grounded.child {a parent : α} (step : up a = some parent) (above : Grounded up parent) :
    Grounded up a := by
  constructor
  intro other step'
  rw [step] at step'
  cases step'
  exact above

/-- Each element of the list is the parent of the one before it, and the last one's
parent is `next`. -/
def Chain (up : α → Option α) : List α → Option α → Prop
  | [], _ => True
  | [a], next => up a = next
  | a :: b :: rest, next => up a = some b ∧ Chain up (b :: rest) next

theorem Chain.snoc (chain : Chain up path (some a)) : Chain up (path ++ [a]) (up a) := by
  induction path with
  | nil => rfl
  | cons x path ih =>
    cases path with
    | nil => exact ⟨chain, rfl⟩
    | cons y path => exact ⟨chain.1, ih chain.2⟩

/-- A chain that ends, or that leads to a grounded element, is grounded as a whole. -/
theorem Chain.grounded (chain : Chain up path next)
    (ends : ∀ a, next = some a → Grounded up a) : ∀ a ∈ path, Grounded up a := by
  induction path with
  | nil => simp
  | cons x path ih =>
    cases path with
    | nil =>
      intro a mem
      rw [mem_singleton] at mem
      subst mem
      cases next with
      | none => exact Grounded.root chain
      | some b => exact Grounded.child chain (ends b rfl)
    | cons y path =>
      have rest := ih chain.2
      intro a mem
      rcases mem_cons.1 mem with rfl | mem
      · exact Grounded.child chain.1 (rest y (by simp))
      · exact rest a mem

theorem not_transGen_self (grounded : ∀ a, Grounded up a) (a : α) :
    ¬ Relation.TransGen (fun child parent => up child = some parent) a a := by
  have wf : WellFounded (fun parent child => up child = some parent) := ⟨grounded⟩
  intro cycle
  exact wf.transGen.irrefl.irrefl a (Relation.transGen_swap.1 cycle)

theorem Chain.unsnoc
    (chain : Chain up (path ++ [a]) next) : up a = next ∧ Chain up path (some a) := by
  induction path with
  | nil => exact ⟨chain, trivial⟩
  | cons x path ih =>
    cases path with
    | nil => exact ⟨chain.2, chain.1⟩
    | cons y path =>
      obtain ⟨last, rest⟩ := ih chain.2
      exact ⟨last, chain.1, rest⟩

theorem Chain.below {next : α} (chain : Chain up path (some next)) :
    ∀ a ∈ path, Relation.TransGen (fun child parent => up child = some parent) a next := by
  induction path with
  | nil => simp
  | cons x path ih =>
    cases path with
    | nil =>
      intro a mem
      rw [mem_singleton.1 mem]
      exact .single chain
    | cons y path =>
      have rest := ih chain.2
      intro a mem
      rcases mem_cons.1 mem with rfl | mem
      · exact .head chain.1 (rest y (by simp))
      · exact rest a mem

theorem Chain.suffix {start rest : List α} (chain : Chain up (start ++ rest) next) :
    Chain up rest next := by
  induction start with
  | nil => exact chain
  | cons x start ih =>
    cases start with
    | nil =>
      cases rest with
      | nil => trivial
      | cons y rest => exact chain.2
    | cons y start => exact ih chain.2

/-- A walk upwards can be cut short where it meets an element twice. -/
theorem exists_chain {b : α}
    (above : Relation.TransGen (fun child parent => up child = some parent) a b) :
    ∃ path, Chain up (a :: path) (some b) ∧ (a :: path).Nodup := by
  induction above using Relation.TransGen.head_induction_on with
  | single step => exact ⟨[], step, by simp⟩
  | @head a c step _ ih =>
    obtain ⟨path, chain, distinct⟩ := ih
    by_cases again : a ∈ c :: path
    · obtain ⟨start, rest, same⟩ := append_of_mem again
      rw [same] at chain distinct
      exact ⟨rest, chain.suffix, distinct.sublist (sublist_append_right _ _)⟩
    · exact ⟨c :: path, ⟨step, chain⟩, nodup_cons.2 ⟨again, distinct⟩⟩

inductive Depth (up : α → Option α) : α → Nat → Prop where
  | root {a : α} (top : up a = none) : Depth up a 0
  | child {a parent : α} {k : Nat} (step : up a = some parent) (above : Depth up parent k) :
      Depth up a (k + 1)

theorem Depth.unique {k k' : Nat} (first : Depth up a k) (second : Depth up a k') : k = k' := by
  induction first generalizing k' with
  | root top =>
    cases second with
    | root => rfl
    | child step => simp [top] at step
  | child step above ih =>
    cases second with
    | root top => simp [top] at step
    | child step' above' =>
      rw [step] at step'
      cases step'
      rw [ih above']

def EntersCycle (up : α → Option α) (a : α) : Prop :=
  ∃ x, Relation.ReflTransGen (fun child parent => up child = some parent) a x ∧
    Relation.TransGen (fun child parent => up child = some parent) x x

theorem EntersCycle.parent (enters : EntersCycle up a) :
    ∃ parent, up a = some parent ∧ EntersCycle up parent := by
  obtain ⟨x, reached, cycle⟩ := enters
  rcases reached.cases_head with rfl | ⟨parent, step, rest⟩
  · obtain ⟨parent, step, back⟩ := Relation.TransGen.head'_iff.1 cycle
    exact ⟨parent, step, a, back, cycle⟩
  · exact ⟨parent, step, x, rest, cycle⟩

theorem Depth.not_entersCycle {k : Nat} (depth : Depth up a k) : ¬ EntersCycle up a := by
  induction depth with
  | root top =>
    intro enters
    obtain ⟨parent, step, -⟩ := enters.parent
    simp [top] at step
  | child step above ih =>
    intro enters
    obtain ⟨parent, step', enters⟩ := enters.parent
    rw [step] at step'
    cases step'
    exact ih enters

/-- The depth up to a cap, which is also the level of what never reaches a root. -/
inductive Level (up : α → Option α) (cap : Nat) : α → Nat → Prop where
  | deep {a : α} {k : Nat} (depth : Depth up a k) : Level up cap a (min k cap)
  | cyclic {a : α} (enters : EntersCycle up a) : Level up cap a cap

theorem Level.child {cap k : Nat} {parent : α} (step : up a = some parent) (above : Level up cap parent k) :
    Level up cap a (min (k + 1) cap) := by
  cases above with
  | @deep k depth =>
    have same : min (min k cap + 1) cap = min (k + 1) cap := by omega
    rw [same]
    exact .deep (.child step depth)
  | cyclic enters =>
    obtain ⟨x, reached, cycle⟩ := enters
    rw [Nat.min_eq_right (Nat.le_succ cap)]
    exact .cyclic ⟨x, .head step reached, cycle⟩

theorem grounded_update [DecidableEq α] (grounded : ∀ a, Grounded up a)
    (outside : ∀ parent, next = some parent →
      ¬ Relation.ReflTransGen (fun child parent => up child = some parent) parent a) (b : α) :
    Grounded (update up a next) b := by
  have apart : ∀ b, ¬ Relation.ReflTransGen (fun child parent => up child = some parent) b a →
      Grounded (update up a next) b := by
    intro b
    induction grounded b with
    | intro b _ ih =>
      intro apart
      have other : b ≠ a := fun same => apart (same ▸ .refl)
      constructor
      intro parent step
      rw [update_of_ne other] at step
      exact ih parent step fun below => apart (.head step below)
  have here : Grounded (update up a next) a := by
    constructor
    intro parent step
    rw [update_self] at step
    exact apart parent (outside parent step)
  induction grounded b with
  | intro b _ ih =>
    by_cases same : b = a
    · exact same ▸ here
    · constructor
      intro parent step
      rw [update_of_ne same] at step
      exact ih parent step

end Forest
