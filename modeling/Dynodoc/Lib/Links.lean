import Mathlib.Logic.Relation

/-! Chains of a given number of links. -/
namespace Dynodoc.Links

variable {α : Type} {r : α → α → Prop} {a b c : α} {n m : Nat}

inductive Linked (r : α → α → Prop) : Nat → α → α → Prop
  | refl (a : α) : Linked r 0 a a
  | step {n : Nat} {a b c : α} : Linked r n a b → r b c → Linked r (n + 1) a c

theorem Linked.single (link : r a b) : Linked r 1 a b :=
  .step (.refl a) link

theorem Linked.trans (first : Linked r n a b) (second : Linked r m b c) : Linked r (n + m) a c := by
  induction second with
  | refl => exact first
  | step _ link ih => exact .step (ih first) link

/-- Where a link determines what it starts from, so do any number of them. -/
theorem Linked.unique (determined : Relator.LeftUnique r) (first : Linked r n a c)
    (second : Linked r n b c) : a = b := by
  induction first generalizing b with
  | refl a =>
    cases second
    rfl
  | step _ link ih =>
    cases second with
    | step before last =>
      cases determined link last
      exact ih before

/-- Where each link raises a height by one, the heights of the two ends give the number of links. -/
theorem linked_of_heights (height : α → Int) (raises : ∀ a b, r a b → height b = height a + 1)
    (path : Relation.ReflTransGen r a b) :
    ∃ n : Nat, Linked r n a b ∧ height b = height a + n := by
  induction path with
  | refl => exact ⟨0, .refl a, by simp⟩
  | tail _ link ih =>
    obtain ⟨n, links, eq⟩ := ih
    refine ⟨n + 1, .step links link, ?_⟩
    have := raises _ _ link
    omega

theorem Linked.mono {s : α → α → Prop} (imp : ∀ a b, r a b → s a b) (links : Linked r n a b) :
    Linked s n a b := by
  induction links with
  | refl a => exact .refl a
  | step _ link ih => exact .step ih (imp _ _ link)

end Dynodoc.Links
