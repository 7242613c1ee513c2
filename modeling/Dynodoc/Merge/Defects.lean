import Dynodoc.Merge.Repair

/-! Valid trees: no parent cycle, no live node below a missing or deleted one, no name used
by two live nodes. A search that finds no defect has seen a valid tree. -/
namespace Dynodoc
open Std (ExtTreeMap ExtTreeSet)
open Loop List Option Std.ExtTreeMap

variable {id : NodeId} {s : DocumentState}

namespace DocumentState

structure ValidTree (s : DocumentState) : Prop where
  acyclic : ∀ id, ¬ Relation.TransGen (fun child parent => s.parentOf child = some parent) id id
  anchored : ∀ id n parent, s.LiveAt id n → n.parentId = some parent → ∃ p, s.LiveAt parent p
  unambiguous : ∀ id id' n n' name, s.LiveAt id n → s.LiveAt id' n' → name ≠ "" →
    n.varName = some name → n'.varName = some name → id = id'

end DocumentState

namespace Merge
open Diff DocumentState

variable {fuel : Nat}

theorem followParents_grounded {visited path : List NodeId}
    {start : NodeId} (known : ∀ id ∈ visited, Forest.Grounded s.parentOf id)
    (walked : loop (followParents s visited) fuel ([], some start) = .ok (.inl path)) :
    Forest.Grounded s.parentOf start ∧ ∀ id ∈ path, Forest.Grounded s.parentOf id := by
  refine loop_post
    (fun (state : List NodeId × Option NodeId) => Forest.Chain s.parentOf state.1 state.2 ∧
      (state.2 = some start ∨ start ∈ state.1))
    (fun result => ∀ path, result = .inl path →
      Forest.Grounded s.parentOf start ∧ ∀ id ∈ path, Forest.Grounded s.parentOf id)
    ?_ ?_ ?_ walked path rfl
  · rintro ⟨path, cursor⟩ next ⟨chain, reached⟩ step
    simp only [followParents] at step
    repeat' split at step
    all_goals cases step
    rename_i id here _
    obtain ⟨rfl, -⟩ := filter_eq_some_iff.1 here
    refine ⟨chain.snoc, .inr ?_⟩
    rcases reached with same | mem
    · simp [some.inj same]
    · simp [mem]
  · rintro ⟨path, cursor⟩ result ⟨chain, reached⟩ step
    simp only [followParents] at step
    repeat' split at step
    all_goals cases step
    · rename_i stopped
      have above : ∀ id, cursor = some id → Forest.Grounded s.parentOf id := by
        rintro id rfl
        apply known
        simpa using stopped
      rintro path' ⟨⟩
      have all := chain.grounded above
      exact ⟨reached.elim (above start) (all start), all⟩
    · simp
  · exact ⟨trivial, .inl rfl⟩

theorem findCycleFrom_grounded {starts visited : List NodeId}
    (known : ∀ id ∈ visited, Forest.Grounded s.parentOf id)
    (searched : findCycleFrom fuel s starts visited = .ok none) :
    ∀ id ∈ starts, Forest.Grounded s.parentOf id := by
  induction starts generalizing visited with
  | nil => simp
  | cons start rest ih =>
    simp only [findCycleFrom, bind_eq_ok] at searched
    obtain ⟨found, walked, searched⟩ := searched
    cases found with
    | inr cycle => simp at searched
    | inl path =>
      obtain ⟨here, along⟩ := followParents_grounded known walked
      have later := ih (fun id mem => (mem_append.1 mem).elim (known id) (along id)) searched
      intro id mem
      rcases mem_cons.1 mem with rfl | mem
      · exact here
      · exact later id mem

theorem findParentCycle_none (searched : findParentCycle fuel s = .ok none) (id : NodeId) :
    Forest.Grounded s.parentOf id := by
  by_cases mem : id ∈ s.nodes
  · exact findCycleFrom_grounded (by simp) searched id (mem_keys.2 mem)
  · apply Forest.Grounded.root
    simp [parentOf, OrderedMap.getElem?_eq_none_iff.2 mem]

theorem findOrphan_none (searched : findOrphan s = none) {parent : NodeId}
    {n : MaterializedNode} (stored : s.nodes[id]? = some n) (live : n.deleted = false)
    (inside : n.parentId = some parent) : (liveNode s parent).isSome := by
  have here := findSome?_eq_none_iff.1 searched (id, n)
    (mem_toList_iff_getElem?_eq_some.2 stored)
  simpa [inside, live, isSome_iff_ne_none] using here

theorem foldl_addNamed (l : List (NodeId × MaterializedNode))
    (byName : ExtTreeMap String (List MaterializedNode)) (name : String) :
    (l.foldl addNamed byName).getD name [] =
      byName.getD name [] ++ (l.filter fun e =>
        usedName e.2 = some name && !e.2.deleted).map Prod.snd := by
  induction l generalizing byName with
  | nil => simp
  | cons e l ih =>
    rw [foldl_cons, ih]
    cases used : usedName e.2 with
    | none => simp [addNamed, used]
    | some other =>
      by_cases dead : e.2.deleted
      · simp [addNamed, used, dead]
      · by_cases same : other = name
        · subst same
          simp [addNamed, used, dead]
        · simp [addNamed, used, dead, same, getD_insert]

theorem namedNodes_getD (s : DocumentState) (name : String) :
    (namedNodes s).getD name [] = (s.nodes.toList.filter fun e =>
      usedName e.2 = some name && !e.2.deleted).map Prod.snd := by
  simp [namedNodes, foldl_addNamed]

theorem one_lt_length {α : Type} {l : List α} {a b : α} (first : a ∈ l) (second : b ∈ l)
    (different : a ≠ b) : 1 < l.length := by
  match l with
  | [] => simp at first
  | [c] => simp_all
  | _ :: _ :: _ => simp

variable {team : DocumentState}

theorem findDuplicateVarName_none
    (searched : findDuplicateVarName team s = none) {id' : NodeId} {n n' : MaterializedNode}
    {name : String} (stored : s.nodes[id]? = some n) (stored' : s.nodes[id']? = some n')
    (live : n.deleted = false) (live' : n'.deleted = false) (used : name ≠ "")
    (named : n.varName = some name) (named' : n'.varName = some name) : id = id' := by
  by_contra different
  have several : 1 < ((namedNodes s).getD name []).length := by
    rw [namedNodes_getD, length_map]
    apply one_lt_length (a := (id, n)) (b := (id', n'))
    · simp [stored, usedName, named, used, live]
    · simp [stored', usedName, named', used, live']
    · simp [different]
  simp only [findDuplicateVarName] at searched
  split at searched
  · rename_i unique
    rw [find?_eq_none] at unique
    cases found : (namedNodes s)[name]? with
    | none => simp [getD_eq_getD_getElem?, found] at several
    | some nodes =>
      have here := unique (name, nodes) (mem_toList_iff_getElem?_eq_some.2 found)
      simp [getD_eq_getD_getElem?, found] at several here
      omega
  · rename_i _ nodes found
    have long : 1 < nodes.length := by simpa using find?_some found
    cases nodes with
    | nil => simp at long
    | cons _ _ => simp at searched

theorem findDuplicateVarName_live (keyed : Keyed s.nodes)
    (found : findDuplicateVarName team s = some id) : (liveNode s id).isSome := by
  simp only [findDuplicateVarName] at found
  split at found
  · contradiction
  rename_i name nodes several
  obtain ⟨n, chosen, rfl⟩ := map_eq_some_iff.1 found
  have mem : n ∈ nodes := by
    rcases or_eq_some_iff.1 chosen with changed | ⟨-, first⟩
    · exact mem_of_find?_eq_some changed
    · exact mem_of_head? first
  have held := mem_toList_iff_getElem?_eq_some.1 (mem_of_find?_eq_some several)
  have all := namedNodes_getD s name
  rw [getD_eq_getD_getElem?, held, getD_some] at all
  rw [all] at mem
  obtain ⟨⟨key, m⟩, selected, rfl⟩ := mem_map.1 mem
  obtain ⟨entry, live⟩ := mem_filter.1 selected
  have stored := mem_toList_iff_getElem?_eq_some.1 entry
  simp only [Bool.and_eq_true] at live
  simp [liveNode, keyed key m stored, stored, live.2]

theorem findDefect_none (searched : findDefect fuel team s = .ok none) :
    findParentCycle fuel s = .ok none ∧ findOrphan s = none ∧
      findDuplicateVarName team s = none := by
  simp only [findDefect, bind_eq_ok] at searched
  obtain ⟨cycle, walked, rest⟩ := searched
  cases cycle with
  | some cycle =>
    simp only at rest
    split at rest <;> simp at rest
  | none =>
    simp only at rest
    split at rest
    · simp at rest
    rename_i noOrphan
    simp only [Except.ok.injEq, map_eq_none_iff] at rest
    exact ⟨walked, noOrphan, rest⟩

theorem findDefect_name
    (searched : findDefect fuel team s = .ok (some (.name id))) :
    findDuplicateVarName team s = some id := by
  simp only [findDefect, bind_eq_ok] at searched
  obtain ⟨cycle, -, rest⟩ := searched
  cases cycle with
  | some cycle =>
    simp only at rest
    split at rest <;> simp at rest
  | none =>
    simp only at rest
    split at rest
    · simp at rest
    · simpa using rest

end Merge
end Dynodoc
