import Dynodoc.Integrity.Gate
import Dynodoc.Lib.Cycles

/-! The search for relevance cycles finds one whenever there is one, and what it reports are
cycles. -/
namespace Dynodoc.Integrity
open Std (ExtTreeMap ExtTreeSet)
open Loop OrderedMap Cycles
open DepthFirst (Marks Mark OnPath Underway valueAt)
open Dynodoc.Expr (extractVarRefs mem_extractVarRefs)
open List hiding getElem?_insert

variable {violations : List IntegrityViolation} {live : List MaterializedNode} {fuel : Nat}
  {search' : Search}

section Turned

variable {nodes : List NodeId} {r : NodeId → NodeId → Prop}

theorem smallest_spec (some_ : nodes ≠ []) : ∃ least ∈ nodes, smallest nodes = some least ∧
    ∀ x ∈ nodes, (compare least x).isLE := by
  induction nodes using List.reverseRecOn with
  | nil => contradiction
  | append_singleton nodes last ih =>
    by_cases none : nodes = []
    · subst none
      exact ⟨last, by simp, rfl, by simp⟩
    · obtain ⟨least, mem, found, below⟩ := ih none
      rw [smallest] at found
      simp only [smallest, foldl_append, found, foldl_cons]
      split
      · rename_i less
        refine ⟨last, by simp, rfl, fun x mem' => ?_⟩
        rcases mem_append.1 mem' with mem' | mem'
        · exact Std.TransOrd.isLE_trans (by rw [less]; rfl) (below x mem')
        · simp [mem_singleton.1 mem']
      · rename_i notLess
        refine ⟨least, by simp [mem], rfl, fun x mem' => ?_⟩
        rcases mem_append.1 mem' with mem' | mem'
        · exact below x mem'
        · rw [Std.OrientedOrd.eq_swap (a := least)]
          cases order : compare last least <;> simp_all

theorem canonicalCycle_spec (cycle : IsCycle r nodes) :
    nodes.IsRotated (canonicalCycle nodes) ∧ Canonical r (canonicalCycle nodes) := by
  obtain ⟨least, mem, found, below⟩ := smallest_spec cycle.some
  have within := idxOf_lt_length_iff.2 mem
  have turned : nodes.rotate (nodes.idxOf least) = canonicalCycle nodes := by
    rw [rotate_eq_drop_append_take within.le, canonicalCycle, found]
    rfl
  rw [← turned]
  refine ⟨⟨_, rfl⟩, cycle.turn ⟨_, rfl⟩, fun first starts x mem' => ?_⟩
  rw [head?_rotate within, getElem?_idxOf mem] at starts
  cases starts
  exact below x (mem_rotate.1 mem')

end Turned

section Search

variable {adjacency : ExtTreeMap NodeId (List NodeId)}

def markOf : VisitState → Mark Unit
  | .inProgress => .entered
  | .done => .done ()

/-- The states of the nodes as marks of a search that gives no values. -/
def marksOf (state : ExtTreeMap NodeId VisitState) : Marks NodeId Unit := state.map fun _ => markOf

theorem getElem?_marksOf {state : ExtTreeMap NodeId VisitState} {node : NodeId} :
    (marksOf state)[node]? = state[node]?.map markOf := by
  rw [marksOf, ExtTreeMap.getElem?_map]

theorem marksOf_insert (state : ExtTreeMap NodeId VisitState) (node : NodeId) (visited : VisitState) :
    marksOf (state.insert node visited) = (marksOf state).insert node (markOf visited) := by
  refine ExtTreeMap.ext_getElem? fun other => ?_
  rw [getElem?_marksOf, getElem?_insert, getElem?_insert, getElem?_marksOf]
  split <;> rfl

def Leads (adjacency : ExtTreeMap NodeId (List NodeId)) (a b : NodeId) : Prop :=
  b ∈ gathered adjacency a

/-- What holds in the search: the stack is the path to the node at hand, what was reported are
different cycles, and before the first of them the search was one without cycles. -/
structure Walk (adjacency : ExtTreeMap NodeId (List NodeId)) (seen : List NodeId)
    (frames : List (NodeId × Nat)) (search : Search) : Prop where
  path : OnPath (gathered adjacency) frames (marksOf search.state)
  stack : search.stack = (frames.map Prod.fst).reverse
  seen : ∀ a ∈ seen, a ∈ search.state
  canonical : ∀ c ∈ search.reported, Canonical (Leads adjacency) c
  once : search.reported.Nodup
  listed : search.violations = search.reported.map .relevanceCycle
  clear : search.reported = [] →
    Underway (gathered adjacency) (fun _ _ => ()) frames (marksOf search.state)

variable {seen : List NodeId} {frames : List (NodeId × Nat)} {search : Search}
  {node next : NodeId} {edge : Nat}

section Walks

variable (walk : Walk adjacency seen ((node, edge) :: frames) search)

include walk

/-- The part of the stack from a node on which the search comes back to. -/
theorem Walk.cycle
    (back : next ∈ gathered adjacency node) (mem : next ∈ search.stack) :
    IsCycle (Leads adjacency) (search.stack.drop (search.stack.idxOf next)) := by
  have stack := walk.stack
  have chain : search.stack.IsChain (Leads adjacency) := by
    rw [stack, isChain_reverse]
    exact walk.path.chain
  have distinct : search.stack.Nodup := by
    rw [stack, nodup_reverse]
    exact walk.path.distinct
  refine isCycle_drop distinct chain mem ?_ back
  rw [stack]
  simp

theorem Walk.report
    (more : (gathered adjacency node)[edge]? = some next)
    (entered : search.state[next]? = some .inProgress) :
    Walk adjacency seen ((node, edge + 1) :: frames) (report search next) := by
  have mem : next ∈ search.stack := by
    rw [walk.stack, mem_reverse, ← walk.path.entered, getElem?_marksOf, entered]
    rfl
  have path : OnPath (gathered adjacency) ((node, edge + 1) :: frames) (marksOf search.state) :=
    ⟨walk.path.entered, walk.path.distinct, walk.path.chain⟩
  simp only [Integrity.report, if_pos mem]
  split
  · rename_i known
    refine { walk with path, clear := fun none => ?_ }
    rw [none] at known
    contradiction
  · rename_i new
    refine { walk with path, canonical := ?_, once := ?_, listed := ?_, clear := by simp }
    · intro c reported
      rcases mem_append.1 reported with reported | reported
      · exact walk.canonical c reported
      · rw [mem_singleton.1 reported]
        exact (canonicalCycle_spec (walk.cycle (mem_of_getElem? more) mem)).2
    · simpa using walk.once.concat new
    · simp [walk.listed]

theorem Walk.enter
    (more : (gathered adjacency node)[edge]? = some next) (fresh : search.state[next]? = none) :
    Walk adjacency seen ((next, 0) :: (node, edge + 1) :: frames) (enter search next) := by
  have absent : (marksOf search.state)[next]? = none := by
    rw [getElem?_marksOf, fresh]
    rfl
  refine { walk with path := ?_, stack := ?_, seen := ?_, clear := fun none => ?_ }
  · rw [Integrity.enter, marksOf_insert]
    exact walk.path.enter more absent
  · simp [Integrity.enter, walk.stack]
  · intro a mem
    simp [Integrity.enter, walk.seen a mem]
  · rw [Integrity.enter, marksOf_insert]
    exact (walk.clear none).enter more absent

theorem Walk.leave
    (last : (gathered adjacency node)[edge]? = none) :
    Walk adjacency seen frames (leave search node) := by
  refine { walk with path := ?_, stack := ?_, seen := ?_, clear := fun none => ?_ }
  · rw [Integrity.leave, marksOf_insert]
    exact walk.path.leave _
  · simp [Integrity.leave, walk.stack]
  · intro a mem
    simp [Integrity.leave, walk.seen a mem]
  · rw [Integrity.leave, marksOf_insert]
    exact (walk.clear none).leave last

end Walks

theorem Walk.visit {frames' : List (NodeId × Nat)} (walk : Walk adjacency seen frames search)
    (step : visit adjacency (frames, search) = .ok (.inl (frames', search'))) :
    Walk adjacency seen frames' search' := by
  cases frames with
  | nil => cases step
  | cons frame frames =>
    rw [visit, edgeAt_eq] at step
    split at step
    · rename_i next more
      split at step
      · rename_i done
        cases step
        refine { walk with
          path := ⟨walk.path.entered, walk.path.distinct, walk.path.chain⟩
          clear := fun none => (walk.clear none).next more ?_ }
        rw [valueAt, getElem?_marksOf, done]
        rfl
      · rename_i entered
        cases step
        exact walk.report more entered
      · rename_i fresh
        cases step
        exact walk.enter more fresh
    · rename_i last
      cases step
      exact walk.leave last

open DepthFirst

theorem walk_dfsCycles (walk : Walk adjacency seen [] search)
    (ran : dfsCycles adjacency fuel search node = .ok search') :
    Walk adjacency (seen ++ [node]) [] search' := by
  rw [dfsCycles] at ran
  split at ran
  · rename_i known
    cases ran
    exact { walk with seen := by simpa [or_imp, forall_and] using ⟨walk.seen, known⟩ }
  · rename_i fresh
    have absent : valueAt (marksOf search.state) node = none := by
      rw [valueAt, getElem?_marksOf, getElem?_eq_none_iff.2 fresh]
      rfl
    refine loop_post (fun s => Walk adjacency (seen ++ [node]) s.1 s.2) (Walk adjacency (seen ++ [node]) [])
      (fun s s' walk step => walk.visit step) ?_ ?_ ran
    · rintro ⟨frames, search⟩ result walk broke
      cases frames with
      | nil =>
        cases broke
        exact walk
      | cons frame frames =>
        rw [visit] at broke
        split at broke
        · split at broke <;> cases broke
        · cases broke
    · refine { walk with path := ?_, stack := ?_, seen := ?_, clear := fun none => ?_ }
      · rw [enter, marksOf_insert]
        exact walk.path.push rfl (by simp) (by simp)
      · simp [enter, walk.stack]
      · intro a mem
        rcases mem_append.1 mem with mem | mem
        · simp [enter, walk.seen a mem]
        · simp [enter, mem_singleton.1 mem]
      · rw [enter, marksOf_insert]
        exact sound_start (walk.clear none) absent

/-- The search returns; what it reports are different cycles, and without a report no node is on
a cycle. -/
theorem findRelevanceCycles_exact {byVar : ExtTreeMap String (List NodeId)}
    (ran : findRelevanceCycles fuel live byVar = .ok violations) :
    ∃ reported, violations = reported.map .relevanceCycle ∧ reported.Nodup ∧
      (∀ c ∈ reported, Canonical (Leads (adjacencyOf live byVar)) c) ∧
      (reported = [] → ∀ a, ¬ Relation.TransGen (Leads (adjacencyOf live byVar)) a a) := by
  obtain ⟨search, found, rfl⟩ := map_eq_ok.1 ran
  have walk : Walk (adjacencyOf live byVar) (adjacencyOf live byVar).keys [] search := by
    have empty : Underway (gathered (adjacencyOf live byVar)) (fun _ _ => ()) [] (marksOf ∅) :=
      sound_empty
    refine foldlM_post (fun seen search => Walk _ seen [] search)
      (fun seen a s s' _ walk step => walk_dfsCycles walk step) ?_ found
    exact ⟨empty.toOnPath, rfl, by simp, by simp, .nil, rfl, fun _ => empty⟩
  refine ⟨search.reported, walk.listed, walk.once, walk.canonical, fun none a cycle => ?_⟩
  have sound := walk.clear none
  have seen : a ∈ (adjacencyOf live byVar).keys := by
    obtain ⟨b, edge, -⟩ := Relation.TransGen.head'_iff.1 cycle
    rw [ExtTreeMap.mem_keys]
    by_contra absent
    rw [Leads, gathered, getElem?_eq_none_iff.2 absent] at edge
    contradiction
  obtain ⟨visited, state⟩ := mem_iff_exists.1 (walk.seen a seen)
  have mark : (marksOf search.state)[a]? = some (markOf visited) := by
    rw [getElem?_marksOf, state]
    rfl
  cases visited with
  | inProgress => simpa using (sound.entered a).1 mark
  | done =>
    have known : valueAt (marksOf search.state) a = some () := by
      rw [valueAt, mark]
      rfl
    have acc := (sound.solved a () known).2.2
    exact not_rel_self_of_acc acc.transGen (Relation.transGen_swap.1 cycle)

end Search

section State

variable {state : DocumentState} {a b : NodeId}

/-- Whether a live node is visible depends on every live node that defines a variable of its
relevance. -/
def DependsOn (state : DocumentState) (a b : NodeId) : Prop :=
  ∃ n text name, state.nodes[a]? = some n ∧ n.deleted = false ∧
    fieldText n "relevance" = some text ∧ name ∈ extractVarRefs text ∧ Defines state name b

theorem leads_iff (keyed : Keyed state.nodes) :
    Leads (adjacencyOf (liveNodes state) (definitions (liveNodes state))) a b ↔
      DependsOn state a b := by
  have distinct : ((liveNodes state).map MaterializedNode.id).Nodup := by
    refine List.Nodup.sublist (filter_sublist.map _) ?_
    have keys : (state.nodes.toList.map Prod.snd).map MaterializedNode.id = state.nodes.keys := by
      rw [← ExtTreeMap.map_fst_toList_eq_keys, map_map]
      exact map_congr_left fun entry mem =>
        keyed entry.1 entry.2 (ExtTreeMap.mem_toList_iff_getElem?_eq_some.1 mem)
    rw [keys]
    exact ExtTreeMap.nodup_keys
  have stored (targets : List NodeId) :
      (adjacencyOf (liveNodes state) (definitions (liveNodes state)))[a]? = some targets ↔
        ∃ n, state.nodes[a]? = some n ∧ n.deleted = false ∧
          Integrity.targets (definitions (liveNodes state)) n = targets := by
    have made : adjacencyOf (liveNodes state) (definitions (liveNodes state)) =
        .ofList ((liveNodes state).map fun n =>
          (n.id, Integrity.targets (definitions (liveNodes state)) n)) := by
      rw [adjacencyOf, ExtTreeMap.ofList_eq_foldl, foldl_map]
    rw [made, getElem?_ofList (by rw [map_map]; exact distinct), mem_map]
    constructor
    · rintro ⟨n, mem, same⟩
      obtain ⟨i, here, live⟩ := mem_liveNodes.1 mem
      cases same
      exact ⟨n, keyed i n here ▸ here, live, rfl⟩
    · rintro ⟨n, here, live, rfl⟩
      exact ⟨n, mem_liveNodes.2 ⟨a, here, live⟩, by rw [keyed a n here]⟩
  have defined (name : String) (named : name ≠ "") :
      b ∈ gathered (definitions (liveNodes state)) name ↔ Defines state name b := by
    rw [gathered_definers, mem_map]
    constructor
    · rintro ⟨⟨i, n⟩, mem, rfl⟩
      obtain ⟨here, live, varName⟩ := (mem_definers named).1 mem
      exact ⟨n, keyed i n here ▸ here, live, varName⟩
    · rintro ⟨n, here, live, varName⟩
      exact ⟨(b, n), (mem_definers named).2 ⟨here, live, varName⟩, keyed b n here⟩
  constructor
  · intro leads
    obtain ⟨n, here, live, own⟩ := (stored _).1 (getElem?_of_gathered (ne_nil_of_mem leads))
    rw [Leads, ← own, Integrity.targets] at leads
    split at leads
    · rename_i text written
      obtain ⟨name, mem, inside⟩ := mem_flatMap.1 leads
      exact ⟨n, text, name, here, live, written, mem, (defined name (mem_extractVarRefs.1 mem).1).1 inside⟩
    · contradiction
  · rintro ⟨n, text, name, here, live, written, mem, defines⟩
    rw [Leads, gathered, (stored _).2 ⟨n, here, live, rfl⟩, Option.getD_some, targets, written]
    exact mem_flatMap.2 ⟨name, mem, (defined name (mem_extractVarRefs.1 mem).1).2 defines⟩

theorem not_mem_eachExpression
    {check : MaterializedNode → String → String → List IntegrityViolation} {v : IntegrityViolation}
    (never : ∀ node field text, v ∉ check node field text) : v ∉ eachExpression live check := by
  simp only [eachExpression, mem_flatMap, not_exists, not_and]
  intro node _ field _
  split
  · exact never _ _ _
  · simp

theorem validateIntegrity_cycles {debug : Char → String}
    (ran : validateIntegrity debug fuel state = .ok violations) :
    ∃ cycles, findRelevanceCycles fuel (liveNodes state) (definitions (liveNodes state)) = .ok cycles ∧
      ∀ c, violations.count (.relevanceCycle c) = cycles.count (.relevanceCycle c) := by
  obtain ⟨cycles, searched, rfl⟩ := map_eq_ok.1 ran
  refine ⟨cycles, searched, fun c => ?_⟩
  have names : .relevanceCycle c ∉ duplicates (definitions (liveNodes state)) := by simp [duplicates]
  have dangling : .relevanceCycle c ∉
      eachExpression (liveNodes state) (danglingIn (definitions (liveNodes state))) :=
    not_mem_eachExpression fun _ _ _ => by simp [danglingIn]
  have shapes : .relevanceCycle c ∉ eachExpression (liveNodes state) (shapeOf debug
      (definitions (liveNodes state)) (nodeVarType (liveNodes state))
      (choicesByVar state (liveNodes state))) := by
    refine not_mem_eachExpression fun node field text => ?_
    rw [shapeOf]
    split
    · simp
    · split <;> simp
  rw [count_append, count_append, count_append, count_eq_zero.2 names,
    count_eq_zero.2 dangling, count_eq_zero.2 shapes, Nat.zero_add, Nat.add_zero]

/-- The pass reports a relevance cycle exactly when there is one. What it reports are cycles that
start at their smallest node, and it reports none of them twice. -/
theorem relevance_cycles_found (debug : Char → String) (state : DocumentState)
    (keyed : Keyed state.nodes) : ∃ violations bound,
      (∀ fuel ≥ bound, validateIntegrity debug fuel state = .ok violations) ∧
      ((∃ c, .relevanceCycle c ∈ violations) ↔ ∃ a, Relation.TransGen (DependsOn state) a a) ∧
      ∀ c, .relevanceCycle c ∈ violations → Canonical (DependsOn state) c ∧
        violations.count (.relevanceCycle c) = 1 := by
  obtain ⟨violations, bound, returns⟩ := validateIntegrity_returns debug state
  refine ⟨violations, bound, returns, ?_⟩
  obtain ⟨cycles, searched, counted⟩ := validateIntegrity_cycles (returns bound (Nat.le_refl _))
  obtain ⟨reported, rfl, once, canonical, clear⟩ := findRelevanceCycles_exact searched
  have edges : Leads (adjacencyOf (liveNodes state) (definitions (liveNodes state))) =
      DependsOn state := by
    funext a b
    exact propext (leads_iff keyed)
  rw [edges] at canonical clear
  have counts (c : List NodeId) : violations.count (.relevanceCycle c) = reported.count c := by
    rw [counted, count_map_of_injective _ _ fun _ _ => IntegrityViolation.relevanceCycle.inj]
  have mem (c : List NodeId) : .relevanceCycle c ∈ violations ↔ c ∈ reported := by
    rw [← count_pos_iff, counts, count_pos_iff]
  refine ⟨⟨?_, ?_⟩, fun c found => ?_⟩
  · rintro ⟨c, found⟩
    have cycle := (canonical c ((mem c).1 found)).toIsCycle
    obtain ⟨a, inside⟩ := exists_mem_of_ne_nil c cycle.some
    exact ⟨a, cycle.transGen inside inside⟩
  · rintro ⟨a, cycle⟩
    by_cases none : reported = []
    · exact absurd cycle (clear none a)
    obtain ⟨c, found⟩ := exists_mem_of_ne_nil _ none
    exact ⟨c, (mem c).2 found⟩
  · rw [counts]
    exact ⟨canonical c ((mem c).1 found), count_eq_one_of_mem once ((mem c).1 found)⟩

/-- Two questions, each shown for an answer to the other. -/
theorem two_questions_in_a_cycle :
    ∃ violations bound, (∀ fuel ≥ bound, validateIntegrity (fun c => c.toString) fuel
        (.ofNodes [question "a" (some "x") "${y}", question "b" (some "y") "${x}"]) =
          .ok violations) ∧ ∃ c, .relevanceCycle c ∈ violations := by
  obtain ⟨violations, bound, returns, found, -⟩ := relevance_cycles_found (fun c => c.toString)
    (.ofNodes [question "a" (some "x") "${y}", question "b" (some "y") "${x}"])
    (DocumentState.keyed_ofNodes _)
  refine ⟨violations, bound, returns, found.2 ⟨"a", .head (b := "b") ?_ (.single ?_)⟩⟩
  · exact ⟨question "a" (some "x") "${y}", "${y}", "y", by decide +kernel, rfl, by decide +kernel,
      by decide +kernel, question "b" (some "y") "${x}", by decide +kernel, rfl, rfl⟩
  · exact ⟨question "b" (some "y") "${x}", "${x}", "x", by decide +kernel, rfl, by decide +kernel,
      by decide +kernel, question "a" (some "x") "${y}", by decide +kernel, rfl, rfl⟩

end State

end Dynodoc.Integrity
