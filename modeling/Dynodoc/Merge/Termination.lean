import Dynodoc.Merge.Merge

/-! The loops of the merge end: the climb to the root, the release of waiting edits,
the search for a cycle, the revival of ancestors and the removal of children. -/
namespace Dynodoc
open Std (ExtTreeMap ExtTreeSet)
open Loop List OrderedMap Settles Option

namespace Diff

theorem climb_settles (s : DocumentState) (depths : ExtTreeMap NodeId Nat) (cap : Nat)
    (id : NodeId) : Settles fun fuel => loop (climb s depths cap) fuel ([], id) := by
  -- The path has no node twice and only nodes of the document.
  apply loop (fun state => state.1.Nodup ∧ ∀ x ∈ state.1, x ∈ s.nodes)
    (fun state => s.nodes.size - state.1.length)
  · rintro ⟨path, cursor⟩ -
    simp only [climb]
    repeat' split
    all_goals simp
  · rintro ⟨path, cursor⟩ next ⟨distinct, within⟩ step
    simp only [climb] at step
    repeat' split at step
    all_goals cases step
    rename_i node _ found _ _ _ fresh
    have distinct' : (path ++ [cursor]).Nodup := by simpa using distinct.concat (by simpa using fresh)
    have within' : ∀ x ∈ path ++ [cursor], x ∈ s.nodes := by
      intro x mem
      rcases mem_append.1 mem with mem | mem
      · exact within x mem
      · rw [mem_singleton.1 mem]
        exact of_getElem?_eq_some found
    have bounded := length_le_size distinct' within'
    simp only [length_append, length_singleton] at bounded ⊢
    exact ⟨⟨distinct', within'⟩, by omega⟩
  · simp

theorem depths_settles (s : DocumentState) : Settles fun fuel => depths fuel s := by
  apply foldlM (fun _ => True)
  · intro depths id _ _
    split
    · exact ok _
    · exact bind (climb_settles s depths _ id) fun _ _ => ok _
  · simp
  · trivial

/-- The waiting edits whose block has not been released. -/
def unreleased (later : List Waiting) (released : List NodeId) : Nat :=
  later.countP fun w => w.block ∉ released

theorem length_dependents_le (later : List Waiting) (block : NodeId) :
    (dependents later block).length ≤ later.length :=
  (length_filter_le _ _).trans (by simp)

theorem release_settles (later : List Waiting) (start : List Nat) :
    Settles fun fuel => loop (release later) fuel (start, [], []) := by
  -- A block that is released for the first time adds at most all edits to the queue.
  apply loop (fun _ => True)
    (fun state => unreleased later state.2.1 * (later.length + 1) + state.1.length)
  · rintro ⟨queue, released, order⟩ -
    simp only [release]
    repeat' split
    all_goals simp
  · rintro ⟨queue, released, order⟩ next - step
    obtain ⟨-, ⟨⟩⟩ | ⟨i, rest, w, rfl, found, ⟨⟩⟩ := of_release step
    refine ⟨trivial, ?_⟩
    simp only [length_append, length_cons]
    split
    · rename_i again
      have same : unreleased later (w.block :: released) = unreleased later released := by
        apply countP_congr
        intro other _
        by_cases h : other.block = w.block <;> simp [h, again]
      simp [same]
    · rename_i fresh
      have fewer : unreleased later (w.block :: released) < unreleased later released := by
        apply countP_lt (mem_of_getElem? found) <;> simp_all
      have bound := length_dependents_le later w.block
      have product : (unreleased later (w.block :: released) + 1) * (later.length + 1) ≤
          unreleased later released * (later.length + 1) := Nat.mul_le_mul_right _ fewer
      rw [Nat.add_mul] at product
      omega
  · trivial

theorem depthOf_total (depths : ExtTreeMap NodeId Nat) (id : NodeId) :
    depthOf depths id ≠ .error .outOfFuel := by
  simp only [depthOf]
  split <;> simp

theorem diff_settles (env : Externals) (source target : DocumentState) :
    Settles fun fuel => diff env fuel source target := by
  apply Settles.bind
  · apply Settles.bind (depths_settles _)
    intro depths _
    refine Settles.bind (Settles.sortByCachedKey _ fun n => ?_) fun nodes _ => Settles.ok _
    have total := depthOf_total depths n.id
    cases h : depthOf depths n.id <;> simp_all [Except.map]
  · intro nodes _
    split
    · exact ok _
    · refine bind ?_ fun removed _ => bind ?_ fun order _ => ok _
      · simp only [removedNodes]
        split
        · exact ok _
        · exact bind (depths_settles _) fun depths _ =>
            sortByCachedKey _ fun n => depthOf_total depths n.id
      · exact bind (release_settles _ _) fun order _ => ok _

end Diff

namespace Merge

variable {nodes : ExtTreeMap NodeId MaterializedNode}

theorem followParents_settles (s : DocumentState) (visited : List NodeId) (start : NodeId) :
    Settles fun fuel => loop (followParents s visited) fuel ([], some start) := by
  -- Only the last node of the path may be missing, and then there is no way on from it.
  apply loop
    (fun state => state.1.Nodup ∧ (state.2 ≠ none → ∀ x ∈ state.1, x ∈ s.nodes))
    (fun state => if state.2 = none then 0 else 1 + (s.nodes.size - state.1.length))
  · rintro ⟨path, cursor⟩ -
    simp only [followParents]
    repeat' split
    all_goals simp
  · rintro ⟨path, cursor⟩ next ⟨distinct, within⟩ step
    simp only [followParents] at step
    split at step
    · simp at step
    rename_i id walked
    split at step
    · simp at step
    rename_i fresh
    cases step
    have here : cursor = some id := (filter_eq_some_iff.1 walked).1
    subst here
    have distinct' : (path ++ [id]).Nodup := by simpa using distinct.concat fresh
    have within' : s.nodes[id]?.bind MaterializedNode.parentId ≠ none →
        ∀ x ∈ path ++ [id], x ∈ s.nodes := by
      intro goesOn x mem
      rcases mem_append.1 mem with mem | mem
      · exact within (by simp) x mem
      · rw [ExtTreeMap.mem_iff_isSome_getElem?]
        cases h : s.nodes[id]? <;> simp_all
    refine ⟨⟨distinct', within'⟩, ?_⟩
    simp only [reduceCtorEq, if_false]
    split
    · omega
    rename_i goesOn
    have bounded := length_le_size distinct' (within' goesOn)
    simp only [length_append, length_singleton] at bounded ⊢
    omega
  · simp

theorem findCycleFrom_settles (s : DocumentState) (starts visited : List NodeId) :
    Settles fun fuel => findCycleFrom fuel s starts visited := by
  induction starts generalizing visited with
  | nil => exact ok none
  | cons start rest ih =>
    refine bind (followParents_settles s visited start) fun found _ => ?_
    cases found with
    | inl path => exact ih (visited ++ path)
    | inr cycle => exact ok (some cycle)

theorem findDefect_settles (team out : DocumentState) :
    Settles fun fuel => findDefect fuel team out := by
  refine bind (findCycleFrom_settles out _ _) fun found _ => ?_
  apply const
  repeat' split
  all_goals simp

theorem findCycleFrom_mono {fuel more : Nat} (le : fuel ≤ more) {s : DocumentState}
    {starts visited : List NodeId}
    (done : findCycleFrom fuel s starts visited ≠ .error .outOfFuel) :
    findCycleFrom more s starts visited = findCycleFrom fuel s starts visited := by
  induction starts generalizing visited with
  | nil => rfl
  | cons start rest ih =>
    simp only [findCycleFrom] at done ⊢
    have walked : loop (followParents s visited) fuel ([], some start) ≠ .error .outOfFuel := by
      intro stopped
      simp [stopped, Bind.bind, Except.bind] at done
    rw [loop_mono le walked]
    cases found : loop (followParents s visited) fuel ([], some start) with
    | error e => rfl
    | ok result =>
      cases result with
      | inr cycle => rfl
      | inl path =>
        simp only [found] at done ⊢
        exact ih done

theorem liveNode_insert (out : DocumentState) (id other : NodeId) (n : MaterializedNode)
    (removed : ExtTreeSet NodeId) :
    liveNode { out with nodes := out.nodes.insert id n, removedChoices := removed } other =
      if other = id then (some n).filter fun n => !n.deleted else liveNode out other := by
  simp only [liveNode, OrderedMap.getElem?_insert]
  split <;> rfl

theorem reviveStep_settles (side out : DocumentState) (start : NodeId) :
    Settles fun fuel => loop (reviveStep side) fuel (out, some start) := by
  -- Every step brings one more of the side's nodes to life.
  apply loop (fun _ => True)
    (fun state => side.nodes.keys.countP fun id => (liveNode state.1 id).isNone)
  · rintro ⟨out, cursor⟩ -
    simp only [reviveStep]
    repeat' split
    all_goals simp
  · rintro ⟨out, cursor⟩ next - step
    simp only [reviveStep] at step
    split at step
    · simp at step
    rename_i id walked
    split at step
    · simp at step
    rename_i n found
    cases step
    have dead : (liveNode out id).isNone = true := (filter_eq_some_iff.1 walked).2
    obtain ⟨stored, live⟩ := filter_eq_some_iff.1 found
    have known : id ∈ side.nodes.keys := by
      rw [ExtTreeMap.mem_keys, ExtTreeMap.mem_iff_isSome_getElem?, stored]
      rfl
    refine ⟨trivial, countP_lt known ?_ dead ?_⟩
    · simp [liveNode_insert, filter_some, live]
    · intro other _
      rw [liveNode_insert]
      split
      · rename_i same
        simp [same, dead]
      · exact fun still => still
  · trivial

theorem nodup_selected (keyed : Keyed nodes) (test : NodeId × MaterializedNode → Bool) :
    ((nodes.toList.filter test).map fun e => e.2.id).Nodup ∧
      ∀ id ∈ (nodes.toList.filter test).map fun e => e.2.id, id ∈ nodes := by
  have ids : (nodes.toList.filter test).map (fun e => e.2.id) =
      (nodes.toList.filter test).map Prod.fst := by
    apply map_congr_left
    intro e mem
    exact keyed _ _ (ExtTreeMap.mem_toList_iff_getElem?_eq_some.1 (mem_of_mem_filter mem))
  have sub : ((nodes.toList.filter test).map Prod.fst).Sublist nodes.keys := by
    rw [← ExtTreeMap.map_fst_toList_eq_keys]
    exact filter_sublist.map _
  rw [ids]
  constructor
  · apply List.Nodup.sublist sub
    exact ExtTreeMap.distinct_keys.imp fun {a b} distinct same => distinct (by simp [same])
  · intro id mem
    exact ExtTreeMap.mem_keys.1 (sub.subset mem)

/-- The nodes without some of them, and the stack with those. -/
def erased (nodes : ExtTreeMap NodeId MaterializedNode) (stack kids : List NodeId) :
    ExtTreeMap NodeId MaterializedNode × List NodeId :=
  kids.foldl (fun (nodes, stack) kid => (nodes.erase kid, kid :: stack)) (nodes, stack)

variable {stack kids : List NodeId}

theorem getElem?_erased
    {id : NodeId} {n : MaterializedNode} (left : (erased nodes stack kids).1[id]? = some n) :
    nodes[id]? = some n := by
  induction kids generalizing nodes stack with
  | nil => exact left
  | cons kid kids ih =>
    have before := ih left
    simp only [getElem?_erase] at before
    split at before
    · contradiction
    · exact before

theorem erased_size
    (distinct : kids.Nodup) (within : ∀ kid ∈ kids, kid ∈ nodes) :
    (erased nodes stack kids).1.size + kids.length = nodes.size ∧
      (erased nodes stack kids).2.length = stack.length + kids.length := by
  induction kids generalizing nodes stack with
  | nil => simp [erased]
  | cons kid kids ih =>
    obtain ⟨fresh, distinct⟩ := nodup_cons.1 distinct
    have here : kid ∈ nodes := within kid (by simp)
    have rest : ∀ other ∈ kids, other ∈ nodes.erase kid := by
      intro other mem
      rw [ExtTreeMap.mem_erase]
      refine ⟨?_, within other (by simp [mem])⟩
      rw [Ne, Std.compare_eq_iff_eq]
      rintro rfl
      exact fresh mem
    obtain ⟨size, length⟩ := @ih (nodes.erase kid) (kid :: stack) distinct rest
    have positive : 1 ≤ nodes.size :=
      @OrderedMap.length_le_size _ _ _ _ _ nodes [kid] (by simp) (by simpa using here)
    simp only [erased, foldl_cons, length_cons] at size length ⊢
    rw [ExtTreeMap.size_erase, if_pos (ExtTreeMap.contains_iff_mem.2 here)] at size
    omega

theorem dropKids_settles (team : DocumentState) (keyed : Keyed nodes) (stack : List NodeId) :
    Settles fun fuel => loop (dropKids team) fuel (nodes, stack) := by
  -- A removed child leaves the nodes and enters the stack once.
  apply loop (fun state => Keyed state.1) (fun state => 2 * state.1.size + state.2.length)
  · rintro ⟨nodes, stack⟩ -
    cases stack <;> simp [dropKids]
  · rintro ⟨nodes, stack⟩ next keyed step
    cases stack with
    | nil => simp [dropKids] at step
    | cons parent stack =>
      cases step
      refine ⟨fun id n left => keyed id n (getElem?_erased left), ?_⟩
      obtain ⟨distinct, within⟩ := nodup_selected keyed fun e =>
        e.2.parentId = some parent && !team.nodes.contains e.2.id
      obtain ⟨size, length⟩ := @erased_size nodes stack (kidsOf team nodes parent) distinct within
      simp only [erased, length_cons] at size length ⊢
      omega
  · exact keyed

section Nodes

variable {env : Externals} {resolutions : Resolutions} {buildEventPlan : Bool}

theorem setField_settles (n : MaterializedNode) (key : String) (v : Value) :
    Settles fun _ => setField n key v := by
  apply const
  simp only [setField]
  split <;> simp

theorem mergeField_settles (id : NodeId) (b t d : MaterializedNode)
    (acc : MaterializedNode × Progress Unit) (key : String) :
    Settles fun _ => mergeField (direct env) resolutions id b t d acc key := by
  simp only [mergeField]
  repeat' split
  all_goals first | exact ok _ | exact (setField_settles _ _ _).map _

theorem mergeNode_settles (id : NodeId) (b t : Option MaterializedNode) (d : MaterializedNode)
    (p : Progress Unit) :
    Settles fun _ => mergeNode (direct env) resolutions buildEventPlan id b t d p := by
  simp only [mergeNode]
  split
  · exact ok _
  · split
    · exact ok _
    · split
      · apply Settles.map
        refine Settles.bind ?_ fun acc _ => ?_
        · exact Settles.foldlM (fun _ => True) (fun acc key _ _ => mergeField_settles _ _ _ _ acc key)
            (by simp) trivial
        · apply Settles.map
          simp only [relabel]
          split
          · exact setField_settles _ _ _
          · exact ok _
      · exact const (by simp)

theorem mergeNodes_settles (base team draft : DocumentState) (p : Progress Unit) :
    Settles fun _ => mergeNodes (direct env) resolutions buildEventPlan base team draft p := by
  apply foldlM (fun _ => True)
  · rintro ⟨nodes, p⟩ ⟨id, d⟩ - -
    exact bind (mergeNode_settles id _ _ d p) fun _ _ => ok _
  · simp
  · trivial

end Nodes

end Merge
end Dynodoc
