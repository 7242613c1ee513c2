import Dynodoc.Merge.Termination

/-! The depths by which a difference orders its nodes. -/
namespace Dynodoc.Diff
open Std (ExtTreeMap ExtTreeSet)
open Loop List DocumentState OrderedMap Std.ExtTreeMap

variable {s : DocumentState} {fuel depth : Nat} {result : ExtTreeMap NodeId Nat}
  {id : NodeId}

def Measured (s : DocumentState) (depths : ExtTreeMap NodeId Nat) : Prop :=
  ∀ id depth, depths[id]? = some depth → Forest.Level s.parentOf (s.nodes.size + 1) id depth

section

variable {depths : ExtTreeMap NodeId Nat}

theorem Measured.insert (measured : Measured s depths)
    (here : Forest.Level s.parentOf (s.nodes.size + 1) id depth) : Measured s (depths.insert id depth) := by
  intro other k found
  rw [OrderedMap.getElem?_insert] at found
  split at found
  · rename_i same
    cases found
    exact same ▸ here
  · exact measured other k found

theorem recordDepths_measured {path : List NodeId} {cursor : NodeId}
    (chain : Forest.Chain s.parentOf path (some cursor))
    (top : Forest.Level s.parentOf (s.nodes.size + 1) cursor depth) (measured : Measured s depths) :
    Measured s (recordDepths (s.nodes.size + 1) path depth depths) ∧
      ∀ id, id ∈ path ∨ id ∈ depths → id ∈ recordDepths (s.nodes.size + 1) path depth depths := by
  induction path using reverseRecOn generalizing cursor depth depths with
  | nil => exact ⟨measured, fun id mem => mem.elim (by simp) fun mem => mem⟩
  | append_singleton path x ih =>
    obtain ⟨step, above⟩ := chain.unsnoc
    have here := top.child step
    obtain ⟨result, known⟩ := ih above here (measured.insert here)
    have unfolded (more : Nat) : recordDepths more (path ++ [x]) depth depths =
        recordDepths more path (min (depth + 1) more) (depths.insert x (min (depth + 1) more)) := by
      simp [recordDepths]
    rw [unfolded]
    refine ⟨result, fun id mem => known id ?_⟩
    simp only [mem_append, mem_singleton] at mem
    rcases mem with (mem | rfl) | mem
    · exact .inl mem
    · exact .inr (by simp)
    · exact .inr (by simp [mem])

theorem climb_measured
    {start : NodeId} (present : start ∈ s.nodes) (measured : Measured s depths)
    {result : List NodeId × Nat × ExtTreeMap NodeId Nat}
    (climbed : loop (climb s depths (s.nodes.size + 1)) fuel ([], start) = .ok result) :
    (∃ cursor, Forest.Chain s.parentOf result.1 (some cursor) ∧
      Forest.Level s.parentOf (s.nodes.size + 1) cursor result.2.1) ∧ Measured s result.2.2 ∧
    (start ∈ result.1 ∨ start ∈ result.2.2) ∧ ∀ id ∈ depths, id ∈ result.2.2 := by
  refine loop_post
    (fun (state : List NodeId × NodeId) => Forest.Chain s.parentOf state.1 (some state.2) ∧
      (state.2 = start ∨ start ∈ state.1))
    (fun result : List NodeId × Nat × ExtTreeMap NodeId Nat =>
      (∃ cursor, Forest.Chain s.parentOf result.1 (some cursor) ∧
        Forest.Level s.parentOf (s.nodes.size + 1) cursor result.2.1) ∧ Measured s result.2.2 ∧
      (start ∈ result.1 ∨ start ∈ result.2.2) ∧ ∀ id ∈ depths, id ∈ result.2.2)
    ?_ ?_ ?_ climbed
  · rintro ⟨path, cursor⟩ next ⟨chain, reached⟩ step
    simp only [climb] at step
    repeat' split at step
    all_goals cases step
    rename_i found _ parent inside _
    have up : s.parentOf cursor = some parent := by simp [parentOf, found, inside]
    refine ⟨up ▸ chain.snoc, .inr ?_⟩
    rcases reached with rfl | mem
    · simp
    · simp [mem]
  · rintro ⟨path, cursor⟩ result ⟨chain, reached⟩ step
    simp only [climb] at step
    repeat' split at step
    all_goals cases step
    · rename_i known
      refine ⟨⟨cursor, chain, measured _ _ known⟩, measured, ?_, fun id mem => mem⟩
      refine reached.symm.imp_right ?_
      rintro rfl
      exact of_getElem?_eq_some known
    · rename_i missing
      have top : Forest.Depth s.parentOf cursor 0 := .root (by simp [parentOf, missing])
      refine ⟨⟨cursor, chain, .deep top⟩, measured, .inl ?_, fun id mem => mem⟩
      rcases reached with rfl | mem
      · exact absurd present (getElem?_eq_none_iff.1 missing)
      · exact mem
    · rename_i found _ top
      have here : Forest.Depth s.parentOf cursor 0 :=
        .root (by simp [parentOf, found, top])
      refine ⟨⟨cursor, chain, .deep here⟩, measured.insert (.deep here), ?_, fun id mem => by simp [mem]⟩
      refine reached.symm.imp_right ?_
      rintro rfl
      simp
    · -- The cursor was passed before, so the chain has come around.
      rename_i again
      refine ⟨⟨cursor, chain, .cyclic ⟨cursor, .refl, chain.below cursor again⟩⟩, measured, ?_,
        fun id mem => mem⟩
      exact .inl (reached.elim (fun same => same ▸ again) fun mem => mem)
  · exact ⟨trivial, .inl rfl⟩

end

theorem depths_measured (computed : depths fuel s = .ok result) :
    Measured s result ∧ ∀ id ∈ s.nodes, id ∈ result := by
  have all := foldlM_post (fun done known => Measured s known ∧ ∀ id ∈ done, id ∈ known) ?_
    ⟨by simp [Measured], by simp⟩ computed
  · exact ⟨all.1, fun id mem => all.2 id (mem_keys.2 mem)⟩
  · rintro done key known next inKeys ⟨measured, before⟩ step
    have present := mem_keys.1 inKeys
    suffices stepped : Measured s next ∧ ∀ id, id = key ∨ id ∈ known → id ∈ next by
      refine ⟨stepped.1, fun id mem => stepped.2 id ?_⟩
      rcases mem_append.1 mem with mem | mem
      · exact .inr (before id mem)
      · exact .inl (mem_singleton.1 mem)
    split at step
    · rename_i old
      cases step
      exact ⟨measured, fun id mem => mem.elim (fun same => same ▸ old) fun mem => mem⟩
    · obtain ⟨⟨path, depth, depths⟩, climbed, same⟩ := bind_eq_ok.1 step
      cases same
      obtain ⟨⟨cursor, chain, top⟩, measured', start, kept⟩ := climb_measured present measured climbed
      obtain ⟨after, all⟩ := recordDepths_measured chain top measured'
      refine ⟨after, fun id mem => all id ?_⟩
      rcases mem with rfl | mem
      · exact start
      · exact .inr (kept id mem)

/-- The depths that are found along shared ways up are those of each node's own way: as many steps
as there are to a root or a missing parent, and the cap if the way enters a cycle. -/
theorem depths_are_walked (s : DocumentState) : ∃ result,
    (∃ bound, ∀ fuel ≥ bound, depths fuel s = .ok result) ∧ ∀ id ∈ s.nodes,
      (∀ steps, Forest.Depth s.parentOf id steps → result[id]? = some (min steps (s.nodes.size + 1))) ∧
      (Forest.EntersCycle s.parentOf id → result[id]? = some (s.nodes.size + 1)) ∧
      ((∃ steps, Forest.Depth s.parentOf id steps) ∨ Forest.EntersCycle s.parentOf id) := by
  have safe (fuel : Nat) : depths fuel s ≠ .error .panic := by
    refine foldlM_ne_panic (fun known key => ?_) _ _
    split
    · simp
    · intro failed
      rcases bind_eq_error.1 failed with failed | ⟨_, -, failed⟩
      · refine loop_ne_panic (fun state => ?_) _ _ failed
        simp only [climb]
        repeat' split
        all_goals simp
      · cases failed
  obtain ⟨result, bound, computed⟩ := (depths_settles s).returns safe
  refine ⟨result, ⟨bound, computed⟩, fun id present => ?_⟩
  obtain ⟨measured, all⟩ := depths_measured (computed bound (Nat.le_refl bound))
  obtain ⟨level, found⟩ := mem_iff_exists.1 (all id present)
  rw [found]
  cases measured id level found with
  | deep deep =>
    refine ⟨fun steps depth => ?_, fun enters => absurd enters deep.not_entersCycle, .inl ⟨_, deep⟩⟩
    rw [deep.unique depth]
  | cyclic enters =>
    exact ⟨fun steps depth => absurd enters depth.not_entersCycle, fun _ => rfl, .inr enters⟩

end Dynodoc.Diff
