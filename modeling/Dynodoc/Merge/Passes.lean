import Dynodoc.Merge.Pointwise

/-! What the repair passes report. Conflicts are only added; without resolutions every
repair reports one, so that a merge without conflicts was not repaired. -/
namespace Dynodoc.Merge
open Std (ExtTreeMap ExtTreeSet)
open Loop Diff

variable {defect : Defect}

variable {conflicts : List Conflict} {out : DocumentState} {r : Repaired} {remaining : Nat}
  {seen : List RepairKey}

theorem subset_reportOnce (conflicts : List Conflict) (c : Conflict) :
    conflicts ⊆ reportOnce conflicts c := by
  simp only [reportOnce]
  split
  · exact fun _ mem => mem
  · exact fun _ mem => List.mem_append_left _ mem

theorem reportOnce_ne_nil (conflicts : List Conflict) (c : Conflict) :
    reportOnce conflicts c ≠ [] := by
  simp only [reportOnce]
  split
  · rename_i known
    rintro rfl
    simp at known
  · simp

theorem ne_nil_of_subset {a b : List Conflict} (sub : a ⊆ b) (some : a ≠ []) : b ≠ [] := by
  rintro rfl
  exact some (List.subset_nil.1 sub)

variable {fuel : Nat} {base team draft : DocumentState} {resolutions : Resolutions}
  (conflict : Conflict)

theorem subset_chosenSide (conflicts : List Conflict) :
    conflicts ⊆ (chosenSide team draft resolutions conflict conflicts).2 := by
  simp only [chosenSide]
  split
  · exact subset_reportOnce ..
  · split
    · exact fun _ mem => mem
    · split
      · exact fun _ mem => mem
      · exact subset_reportOnce ..

theorem chosenSide_reports (conflicts : List Conflict) :
    (chosenSide team draft ∅ conflict conflicts).2 ≠ [] := by
  exact reportOnce_ne_nil _ _

theorem settle_conflicts (out : DocumentState) (conflicts : List Conflict) (conflict : Conflict)
    (changed : Bool) :
    conflicts ⊆ (settle out conflicts conflict changed).conflicts ∧
      ((settle out conflicts conflict changed).changed = false →
        (settle out conflicts conflict changed).conflicts ≠ []) := by
  cases changed with
  | true => exact ⟨fun _ mem => mem, nofun⟩
  | false => exact ⟨subset_reportOnce _ _, fun _ => reportOnce_ne_nil _ _⟩

theorem resolveOrphan_conflicts {child parent : NodeId}
    (resolved : resolveOrphan fuel base team draft out conflicts resolutions child parent = .ok r) :
    (chosenSide team draft resolutions (orphanConflict base team draft parent) conflicts).2 ⊆
        r.conflicts ∧ (r.changed = false → r.conflicts ≠ []) := by
  simp only [resolveOrphan, map_eq_ok] at resolved
  obtain ⟨next, -, rfl⟩ := resolved
  exact settle_conflicts _ _ _ _

theorem resolveCycle_conflicts (out : DocumentState) (conflicts : List Conflict)
    (cycle : List NodeId) (id : NodeId) :
    let r := resolveCycle base team draft out conflicts resolutions cycle id
    (chosenSide team draft resolutions (locationConflict base team draft id) conflicts).2 ⊆
        r.conflicts ∧ (r.changed = false → r.conflicts ≠ []) :=
  settle_conflicts _ _ _ _

/-- The conflicts with which the repair of a name starts. -/
def nameConflicts (base team draft out : DocumentState) (resolutions : Resolutions)
    (conflicts : List Conflict) (id : NodeId) : List Conflict :=
  let conflict := varNameConflict base team draft id
  if (freshName out resolutions conflict.key id).isNone ∧
      resolutions[conflict.key]? ≠ some "team" then reportOnce conflicts conflict
  else conflicts

theorem resolveDuplicateVarName_conflicts {id : NodeId}
    (resolved : resolveDuplicateVarName fuel base team draft out conflicts resolutions id = .ok r) :
    nameConflicts base team draft out resolutions conflicts id ⊆ r.conflicts ∧
      ((liveNode out id).isSome → r.changed = false → r.conflicts ≠ []) := by
  simp only [resolveDuplicateVarName] at resolved
  split at resolved
  · rename_i rejected
    obtain ⟨next, -, rfl⟩ := map_eq_ok.1 resolved
    refine ⟨fun _ mem => mem, fun live unchanged => ?_⟩
    -- The team has the block dead or not at all, the merge has it alive.
    simp only [decide_eq_false_iff_not, not_not] at unchanged
    have same : liveNode out id = liveNode team id := by simp [liveNode, unchanged]
    rw [same, Option.isNone_iff_eq_none.1 rejected.2] at live
    simp at live
  · split at resolved
    · rename_i missing
      cases resolved
      refine ⟨fun _ mem => mem, fun live => ?_⟩
      simp [liveNode, missing] at live
    · cases resolved
      obtain ⟨grows, reported⟩ := settle_conflicts _ _ _ _
      exact ⟨grows, fun _ => reported⟩

theorem subset_nameConflicts (out : DocumentState) (conflicts : List Conflict) (id : NodeId) :
    conflicts ⊆ nameConflicts base team draft out resolutions conflicts id := by
  simp only [nameConflicts]
  split
  · exact subset_reportOnce _ _
  · exact fun _ mem => mem

theorem nameConflicts_reports (out : DocumentState) (conflicts : List Conflict) (id : NodeId) :
    nameConflicts base team draft out ∅ conflicts id ≠ [] := by
  exact reportOnce_ne_nil _ _

theorem resolve_subset
    (resolved : defect.resolve fuel base team draft resolutions out conflicts = .ok r) :
    conflicts ⊆ r.conflicts := by
  cases defect with
  | orphan child parent =>
    exact List.Subset.trans (subset_chosenSide _ _) (resolveOrphan_conflicts resolved).1
  | name id =>
    exact List.Subset.trans (subset_nameConflicts _ _ _) (resolveDuplicateVarName_conflicts resolved).1
  | cycle members suspect =>
    cases resolved
    exact List.Subset.trans (subset_chosenSide _ _) (resolveCycle_conflicts _ _ _ _).1

theorem resolve_reports (resolved : defect.resolve fuel base team draft ∅ out conflicts = .ok r) :
    r.conflicts ≠ [] := by
  cases defect with
  | orphan child parent =>
    simp only [Defect.resolve] at resolved
    exact ne_nil_of_subset (resolveOrphan_conflicts resolved).1 (chosenSide_reports _ _)
  | name id =>
    exact ne_nil_of_subset (resolveDuplicateVarName_conflicts resolved).1
      (nameConflicts_reports _ _ _)
  | cycle members suspect =>
    cases resolved
    exact ne_nil_of_subset (resolveCycle_conflicts _ _ _ _).1 (chosenSide_reports _ _)

variable {conflicts conflicts' : List Conflict} {out out' : DocumentState}

/-- One pass: nothing is left to repair, the defect is reported, or it is repaired and
the passes either stop there or go on. -/
theorem repair_cases
    (repaired : repair fuel base team draft resolutions remaining out conflicts seen =
      .ok (out', conflicts')) :
    (findDefect fuel team out = .ok none ∧ out' = out ∧ conflicts' = conflicts) ∨
    ∃ defect, findDefect fuel team out = .ok (some defect) ∧
      ((out' = out ∧ conflicts' = reportOnce conflicts (defect.conflict base team draft)) ∨
      ∃ r less, remaining = less + 1 ∧
        defect.resolve fuel base team draft resolutions out conflicts = .ok r ∧
        ((r.changed = false ∧ out' = r.out ∧ conflicts' = r.conflicts) ∨
          (r.changed = true ∧ repair fuel base team draft resolutions less r.out r.conflicts
            (defect.key :: seen) = .ok (out', conflicts')))) := by
  rw [repair, bind_eq_ok] at repaired
  obtain ⟨found, searched, rest⟩ := repaired
  cases found with
  | none =>
    cases rest
    exact .inl ⟨searched, rfl, rfl⟩
  | some defect =>
    refine .inr ⟨defect, searched, ?_⟩
    cases remaining with
    | zero =>
      cases rest
      exact .inl ⟨rfl, rfl⟩
    | succ less =>
      simp only at rest
      split at rest
      · cases rest
        exact .inl ⟨rfl, rfl⟩
      · obtain ⟨r, resolved, rest⟩ := bind_eq_ok.1 rest
        refine .inr ⟨r, less, rfl, resolved, ?_⟩
        split at rest
        · rename_i changed
          exact .inr ⟨changed, rest⟩
        · rename_i unchanged
          cases rest
          exact .inl ⟨by simpa using unchanged, rfl, rfl⟩

theorem repair_subset
    (repaired : repair fuel base team draft resolutions remaining out conflicts seen =
      .ok (out', conflicts')) : conflicts ⊆ conflicts' := by
  induction remaining using Nat.strongRecOn generalizing out conflicts seen with
  | ind remaining ih =>
    obtain ⟨-, -, rfl⟩ | ⟨defect, -, ⟨-, rfl⟩ | ⟨r, less, rfl, resolved, later⟩⟩ :=
      repair_cases repaired
    · exact fun _ mem => mem
    · exact subset_reportOnce _ _
    · obtain ⟨-, -, rfl⟩ | ⟨-, rest⟩ := later
      · exact resolve_subset resolved
      · exact List.Subset.trans (resolve_subset resolved) (ih less (Nat.lt_succ_self _) rest)

/-- Without resolutions a repair is never silent. -/
theorem repair_clean
    (repaired : repair fuel base team draft ∅ remaining out conflicts seen = .ok (out', [])) :
    out' = out ∧ conflicts = [] := by
  obtain ⟨-, rfl, empty⟩ | ⟨defect, -, ⟨-, empty⟩ | ⟨r, less, -, resolved, later⟩⟩ :=
    repair_cases repaired
  · exact ⟨rfl, empty.symm⟩
  · exact absurd empty.symm (reportOnce_ne_nil _ _)
  · obtain ⟨-, -, empty⟩ | ⟨-, rest⟩ := later
    · exact absurd empty.symm (resolve_reports resolved)
    · exact absurd rfl (ne_nil_of_subset (repair_subset rest) (resolve_reports resolved))

theorem diffForMerge_subset {env : Externals} {source target : DocumentState} {ops : List EventPayload}
    (planned : diffForMerge env fuel base source target conflicts = .ok (ops, conflicts')) :
    conflicts ⊆ conflicts' := by
  simp only [diffForMerge, bind_eq_ok] at planned
  obtain ⟨result, -, rest⟩ := planned
  cases result with
  | ok ops =>
    cases rest
    exact fun _ mem => mem
  | error e =>
    cases rest
    exact subset_reportOnce _ _

end Dynodoc.Merge
