import Mathlib.Logic.Relation
import Mathlib.Data.List.Nodup

/-! Ancestors along a function that lists the parents of a node, and the best common ones. -/
namespace Ancestry

variable {ν μ : Type} (parents : ν → List ν)

/-- A node counts as its own ancestor. -/
def Ancestor : ν → ν → Prop := Relation.ReflTransGen fun child parent => parent ∈ parents child

def Common (a b v : ν) : Prop := Ancestor parents a v ∧ Ancestor parents b v

/-- A common ancestor that is not the ancestor of another one. -/
structure Best (a b v : ν) : Prop where
  common : Common parents a b v
  maximal : ∀ w, Common parents a b w → w ≠ v → ¬ Ancestor parents w v

/-- No node is an ancestor of one of its parents. -/
def Acyclic : Prop := ∀ child parent, parent ∈ parents child → ¬ Ancestor parents parent child

/-- A node has no more than so many ancestors. -/
def Within (limit : Nat) (a : ν) : Prop :=
  ∀ l : List ν, l.Nodup → (∀ v ∈ l, Ancestor parents a v) → l.length ≤ limit

variable {parents} {a b v w : ν}

theorem Common.ancestor (common : Common parents a b v) (path : Ancestor parents v w) :
    Common parents a b w :=
  ⟨common.1.trans path, common.2.trans path⟩

/-- In an acyclic graph it is enough to look at the parents of common ancestors: on the way from
one common ancestor to another, every node is one. -/
theorem best_iff (acyclic : Acyclic parents) :
    Best parents a b v ↔ Common parents a b v ∧ ∀ w, Common parents a b w → v ∉ parents w := by
  constructor
  · intro best
    refine ⟨best.common, fun w common edge => ?_⟩
    refine best.maximal w common ?_ (.single edge)
    rintro rfl
    exact acyclic w w edge .refl
  · rintro ⟨common, undominated⟩
    refine ⟨common, fun w commonly differ path => ?_⟩
    rcases path.cases_tail with rfl | ⟨u, front, edge⟩
    · exact differ rfl
    · exact undominated u (commonly.ancestor front) edge

section Numbered

variable {links : μ → List μ} {name : μ → ν} {inside : μ → Prop} {i j : μ}

/-- Some nodes under other names, with the same links. -/
structure Numbering (parents : ν → List ν) (links : μ → List μ) (name : μ → ν) (inside : μ → Prop) :
    Prop where
  linked : ∀ i, inside i → parents (name i) = (links i).map name
  closed : ∀ i, inside i → ∀ j ∈ links i, inside j
  distinct : ∀ i j, inside i → inside j → name i = name j → i = j

variable (numbering : Numbering parents links name inside)

include numbering

theorem Numbering.stays (start : inside i)
    (path : Ancestor links i j) : inside j := by
  induction path with
  | refl => exact start
  | tail _ edge ih => exact numbering.closed _ ih _ edge

theorem Numbering.exists (start : inside i)
    (path : Ancestor parents (name i) v) : ∃ j, name j = v ∧ Ancestor links i j := by
  induction path with
  | refl => exact ⟨i, rfl, .refl⟩
  | tail _ edge ih =>
    obtain ⟨j, rfl, path⟩ := ih
    rw [numbering.linked j (numbering.stays start path), List.mem_map] at edge
    obtain ⟨k, isLink, same⟩ := edge
    exact ⟨k, same, path.tail isLink⟩

theorem Numbering.ancestor_iff (start : inside i) (stop : inside j) :
    Ancestor parents (name i) (name j) ↔ Ancestor links i j := by
  constructor
  · intro path
    obtain ⟨k, same, path⟩ := numbering.exists start path
    rwa [numbering.distinct k j (numbering.stays start path) stop same] at path
  · intro path
    induction path with
    | refl => exact .refl
    | @tail k l front edge ih =>
      have here := numbering.stays start front
      refine (ih here).tail ?_
      rw [numbering.linked k here]
      exact List.mem_map_of_mem edge

theorem Numbering.common_iff {a b : μ} (first : inside a)
    (second : inside b) (stop : inside j) :
    Common parents (name a) (name b) (name j) ↔ Common links a b j :=
  and_congr (numbering.ancestor_iff first stop) (numbering.ancestor_iff second stop)

theorem Numbering.best_iff {a b : μ} (first : inside a)
    (second : inside b) (stop : inside j) : Best parents (name a) (name b) (name j) ↔ Best links a b j := by
  constructor
  · intro best
    refine ⟨(numbering.common_iff first second stop).1 best.common, fun k common differ path => ?_⟩
    have here := numbering.stays first common.1
    refine best.maximal (name k) ((numbering.common_iff first second here).2 common) ?_
      ((numbering.ancestor_iff here stop).2 path)
    exact fun same => differ (numbering.distinct k j here stop same)
  · intro best
    refine ⟨(numbering.common_iff first second stop).2 best.common, fun w common differ path => ?_⟩
    obtain ⟨k, rfl, reached⟩ := numbering.exists first common.1
    have here := numbering.stays first reached
    refine best.maximal k ((numbering.common_iff first second here).1 common) ?_
      ((numbering.ancestor_iff here stop).1 path)
    exact fun same => differ (congrArg name same)

theorem Numbering.within {limit : Nat} (start : inside i)
    (within : Within parents limit (name i)) : Within links limit i := by
  intro l nodup reached
  have distinct : (l.map name).Nodup := nodup.map_on fun j mem k mem' same =>
    numbering.distinct j k (numbering.stays start (reached j mem))
      (numbering.stays start (reached k mem')) same
  have few := within (l.map name) distinct fun v mem => by
    obtain ⟨j, isNumber, rfl⟩ := List.mem_map.1 mem
    have path := reached j isNumber
    exact (numbering.ancestor_iff start (numbering.stays start path)).2 path
  rwa [List.length_map] at few

end Numbered

end Ancestry
