import Dynodoc.Lib.Loop

/-! What a walk along children reaches: a stack of nodes to visit, and the list of those that
have been visited. A walk may follow another and leave out what that one has visited. -/
namespace Worklist
open Loop List

variable {ν : Type} (children : ν → List ν)

def Reaches (roots : List ν) (node : ν) : Prop :=
  ∃ root ∈ roots, Relation.ReflTransGen (fun parent child => child ∈ children parent) root node

structure Walking (known roots stack fresh : List ν) : Prop where
  nodup : fresh.Nodup
  apart : ∀ node ∈ fresh, node ∉ known
  reached : ∀ node ∈ fresh ++ stack, Reaches children roots node
  closed : ∀ node ∈ fresh, ∀ child ∈ children node, child ∈ known ∨ child ∈ fresh ∨ child ∈ stack
  rooted : ∀ root ∈ roots, root ∈ known ∨ root ∈ fresh ∨ root ∈ stack

variable {children} {nodes known roots stack fresh : List ν} {node : ν} {turns : Nat}

theorem Walking.skip (walking : Walking children known roots (node :: stack) fresh)
    (old : node ∈ known ∨ node ∈ fresh) : Walking children known roots stack fresh := by
  refine ⟨walking.nodup, walking.apart, fun other mem => ?_, fun parent mem child edge => ?_,
    fun root mem => ?_⟩
  · exact walking.reached other (by grind)
  · have := walking.closed parent mem child edge
    grind
  · have := walking.rooted root mem
    grind

theorem Walking.path {root : ν} (walking : Walking children known [root] stack fresh)
    (mem : node ∈ fresh ++ stack) :
    Relation.ReflTransGen (fun parent child => child ∈ children parent) root node := by
  obtain ⟨other, isRoot, path⟩ := walking.reached node mem
  rwa [mem_singleton.1 isRoot] at path

/-- The next node is visited: what is left to visit then holds its children that are new. -/
theorem Walking.grow {later : List ν} (walking : Walking children known roots (node :: stack) fresh)
    (new : ¬ (node ∈ known ∨ node ∈ fresh)) (queued : ∀ other ∈ stack, other ∈ later)
    (from' : ∀ other ∈ later, other ∈ children node ∨ other ∈ stack)
    (covered : ∀ child ∈ children node, child ∈ known ∨ child ∈ node :: fresh ∨ child ∈ later) :
    Walking children known roots later (node :: fresh) := by
  obtain ⟨root, isRoot, path⟩ := walking.reached node (by simp)
  refine ⟨nodup_cons.2 ⟨fun old => new (.inr old), walking.nodup⟩, ?_, fun other mem => ?_,
    fun parent mem child edge => ?_, fun other mem => ?_⟩
  · intro other mem
    rcases mem_cons.1 mem with rfl | mem
    · exact fun old => new (.inl old)
    · exact walking.apart other mem
  · by_cases edge : other ∈ children node
    · exact ⟨root, isRoot, path.tail edge⟩
    · have := from' other
      exact walking.reached other (by grind)
  · rcases mem_cons.1 mem with rfl | mem
    · exact covered child edge
    · have := walking.closed parent mem child edge
      grind
  · have := walking.rooted other mem
    grind

/-- A walk that leaves out what is closed under children reaches everything else. -/
theorem Walking.mem_iff (walked : Walking children known roots [] fresh)
    (closed : ∀ node ∈ known, ∀ child ∈ children node, child ∈ known) (node : ν) :
    node ∈ fresh ↔ Reaches children roots node ∧ node ∉ known := by
  constructor
  · exact fun mem => ⟨walked.reached node (by simpa using mem), walked.apart node mem⟩
  · rintro ⟨⟨root, isRoot, path⟩, new⟩
    have seen : node ∈ known ∨ node ∈ fresh := by
      clear new
      induction path with
      | refl => simpa using walked.rooted root isRoot
      | @tail parent child _ edge ih =>
        rcases ih with old | here
        · exact .inl (closed parent old child edge)
        · simpa using walked.closed parent here child edge
    exact seen.resolve_left new

variable [DecidableEq ν]

variable (children) in
/-- The nodes reached anew, the last one first; the stack has its top at the front. Every turn
takes one node off the stack, and a node puts its children there only once. -/
def walk (known : List ν) : Nat → List ν → List ν → List ν
  | 0, _, fresh | _, [], fresh => fresh
  | turns + 1, node :: stack, fresh =>
    if node ∈ known ∨ node ∈ fresh then walk known turns stack fresh
    else
      let unreached := (children node).filter fun child => child ∉ known ∧ child ∉ node :: fresh
      walk known turns (unreached.reverse ++ stack) (node :: fresh)

variable (children) in
/-- The turns that are left at most, when no other node than the listed ones has children. -/
def visitsLeft (nodes known stack fresh : List ν) : Nat :=
  stack.length + ((nodes.filter fun node => node ∉ known ∧ node ∉ fresh).map fun node =>
    (children node).length).sum

theorem Walking.visit (walking : Walking children known roots (node :: stack) fresh)
    (new : ¬ (node ∈ known ∨ node ∈ fresh)) :
    Walking children known roots (((children node).filter fun child =>
      child ∉ known ∧ child ∉ node :: fresh).reverse ++ stack) (node :: fresh) :=
  walking.grow new (by grind) (by grind) (by grind)

theorem turnsLeft_visit (stack : List ν) (listed : ∀ node, children node ≠ [] → node ∈ nodes)
    (new : ¬ (node ∈ known ∨ node ∈ fresh)) :
    visitsLeft children nodes known (((children node).filter fun child =>
      child ∉ known ∧ child ∉ node :: fresh).reverse ++ stack) (node :: fresh) <
      visitsLeft children nodes known (node :: stack) fresh := by
  have pushed := length_filter_le (fun child => child ∉ known ∧ child ∉ node :: fresh)
    (children node)
  simp only [visitsLeft, length_append, length_reverse, length_cons]
  by_cases leaf : children node = []
  · have fewer := sum_filter_le (p := fun other => decide (other ∉ known ∧ other ∉ fresh))
      (q := fun other => decide (other ∉ known ∧ other ∉ node :: fresh))
      (fun node => (children node).length) (l := nodes) (fun other => by grind)
    rw [leaf] at pushed ⊢
    simp only [length_nil] at pushed ⊢
    omega
  · have used := sum_filter_add_le (p := fun other => decide (other ∉ known ∧ other ∉ fresh))
      (q := fun other => decide (other ∉ known ∧ other ∉ node :: fresh))
      (fun node => (children node).length) (listed node leaf) (by simp) (by grind)
      (fun other => by grind)
    omega

theorem walk_walked (nodes : List ν) (listed : ∀ node, children node ≠ [] → node ∈ nodes)
    (walking : Walking children known roots stack fresh)
    (enough : visitsLeft children nodes known stack fresh ≤ turns) :
    Walking children known roots [] (walk children known turns stack fresh) := by
  induction turns generalizing stack fresh with
  | zero =>
    cases stack with
    | nil => exact walking
    | cons node stack => simp [visitsLeft] at enough
  | succ turns ih =>
    cases stack with
    | nil => exact walking
    | cons node stack =>
      rw [walk]
      by_cases old : node ∈ known ∨ node ∈ fresh
      · rw [if_pos old]
        refine ih (walking.skip old) ?_
        simp only [visitsLeft, length_cons] at enough ⊢
        omega
      · rw [if_neg old]
        exact ih (walking.visit old) (by have := turnsLeft_visit stack listed old; omega)

end Worklist
