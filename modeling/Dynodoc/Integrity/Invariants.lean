import Dynodoc.Integrity.Relevance

/-! The structural checker: keys, live parents, parent cycles and live names. -/
namespace Dynodoc.Integrity
open Std (ExtTreeMap)
open Loop OrderedMap Cycles Option Std.ExtTreeMap
open List hiding getElem?_insert

variable {node : MaterializedNode} {key id : NodeId} {entry : NodeId × MaterializedNode}
  {c : List NodeId} {state : DocumentState}

inductive InvariantViolation where
  | nodeIdMismatch (key nodeId : NodeId)
  | missingParent (nodeId parentId : NodeId)
  | nonLiveParent (nodeId parentId : NodeId)
  | parentCycle (nodeIds : List NodeId)
  | duplicateVarName (varName : String) (nodeIds : List NodeId)
  deriving DecidableEq

section Check

variable (state : DocumentState)

def isLive (key : NodeId) (node : MaterializedNode) : Bool :=
  !node.deleted && key ∉ state.removedChoices

def checkParent (key : NodeId) (node : MaterializedNode) : List InvariantViolation :=
  match node.parentId with
  | none => []
  | some parentId =>
    match state.nodes[parentId]? with
    | none => [.missingParent key parentId]
    | some parent => if isLive state parentId parent then [] else [.nonLiveParent key parentId]

def checkNode (entry : NodeId × MaterializedNode) : List InvariantViolation :=
  (if entry.1 ≠ entry.2.id then [.nodeIdMismatch entry.1 entry.2.id] else []) ++
    if isLive state entry.1 entry.2 then checkParent state entry.1 entry.2 else []

def liveName (entry : NodeId × MaterializedNode) : Option String :=
  if isLive state entry.1 entry.2 then definedVar entry.2 else none

/-- Follow the parents of live nodes until a node has been met before, on this path or an
earlier one. -/
def climb (visited path : List NodeId) (cursor : Option NodeId) :
    List NodeId × Option (List NodeId) :=
  match cursor with
  | none => (path, none)
  | some key =>
    match _found : state.nodes[key]?.filter (isLive state key) with
    | none => (path, none)
    | some node =>
      if _onPath : key ∈ path then (path, some (canonicalCycle (path.drop (path.idxOf key))))
      else if key ∈ visited then (path, none)
      else climb visited (path ++ [key]) node.parentId
termination_by (state.nodes.keys.filter (· ∉ path)).length
decreasing_by
  have stored := (filter_eq_some_iff.1 _found).1
  have mem : key ∈ state.nodes.keys := mem_keys.2 (of_getElem?_eq_some stored)
  simp only [← List.countP_eq_length_filter]
  exact countP_lt mem (by simp) (by simpa using _onPath) fun x _ => by simp; tauto

def scanFrom (scan : List NodeId × List (List NodeId)) (entry : NodeId × MaterializedNode) :
    List NodeId × List (List NodeId) :=
  if !isLive state entry.1 entry.2 ∨ entry.1 ∈ scan.1 then scan
  else
    let walk := climb state scan.1 [] (some entry.1)
    (scan.1 ++ walk.1, scan.2 ++ walk.2.toList)

def parentCycles : List (List NodeId) := (state.nodes.toList.foldl (scanFrom state) ([], [])).2

def duplicateNames : List (String × List NodeId) :=
  (index (liveName state) Prod.fst state.nodes.toList).toList.filter fun entry => entry.2.length > 1

def checkInvariants : List InvariantViolation :=
  state.nodes.toList.flatMap (checkNode state) ++ (parentCycles state).map .parentCycle ++
    (duplicateNames state).map fun entry => .duplicateVarName entry.1 entry.2

end Check

section Cycles

variable {visited path : List NodeId} {cursor : Option NodeId}

theorem isLive_iff :
    state.nodes[key]? = some node ∧ isLive state key node = true ↔ state.LiveAt key node := by
  simp [isLive, DocumentState.LiveAt]

/-- The link from a live node to its parent. -/
def ParentLink (state : DocumentState) (child parent : NodeId) : Prop :=
  ∃ node, state.LiveAt child node ∧ node.parentId = some parent

theorem parentLink_iff {parent : NodeId}
    (live : state.LiveAt key node) : ParentLink state key parent ↔ node.parentId = some parent := by
  refine ⟨?_, fun link => ⟨node, live, link⟩⟩
  rintro ⟨other, there, link⟩
  cases live.1.symm.trans there.1
  exact link

theorem parentLink_unique (a b b' : NodeId) (link : ParentLink state a b)
    (link' : ParentLink state a b') : b = b' := by
  obtain ⟨node, live, parent⟩ := link
  exact some.inj (parent.symm.trans ((parentLink_iff live).1 link'))

variable (state visited) in
/-- What a climb has gone through, with the parent of the last node next. -/
structure Climbing (path : List NodeId) (cursor : Option NodeId) : Prop where
  chain : path.IsChain (ParentLink state)
  distinct : path.Nodup
  fresh : ∀ x ∈ path, x ∉ visited
  next : ∀ last ∈ path.getLast?, ∀ parent, ParentLink state last parent ↔ cursor = some parent

/-- A cycle that the path has entered goes through the next node. -/
theorem Climbing.follows (climbing : Climbing state visited path cursor)
    (cycle : IsCycle (ParentLink state) c) {x : NodeId} (inside : x ∈ c) (mem : x ∈ path) :
    ∃ key ∈ c, cursor = some key := by
  have ends := getLast?_eq_some_getLast (ne_nil_of_mem mem)
  obtain ⟨key, inside', link⟩ :=
    cycle.next (cycle.last_mem parentLink_unique climbing.chain mem inside ends)
  exact ⟨key, inside', (climbing.next _ ends key).1 link⟩

theorem Climbing.enter
    (climbing : Climbing state visited path (some key)) (live : state.LiveAt key node)
    (offPath : key ∉ path) (new : key ∉ visited) :
    Climbing state visited (path ++ [key]) node.parentId where
  chain := by
    refine isChain_append.2 ⟨climbing.chain, .singleton _, ?_⟩
    rintro last ends _ ⟨⟩
    exact (climbing.next last ends key).2 rfl
  distinct := by simpa using climbing.distinct.concat offPath
  fresh x mem := by
    rcases mem_append.1 mem with mem | mem
    · exact climbing.fresh x mem
    · exact mem_singleton.1 mem ▸ new
  next last ends parent := by
    rw [getLast?_concat] at ends
    cases ends
    exact parentLink_iff live

variable (state visited) in
structure Climbed (start : List NodeId) (walk : List NodeId × Option (List NodeId)) : Prop where
  kept : start ⊆ walk.1
  fresh : ∀ x ∈ walk.1, x ∉ visited
  canonical : ∀ c ∈ walk.2, Canonical (ParentLink state) c ∧ c ⊆ walk.1
  complete : ∀ c, Canonical (ParentLink state) c → ∀ x ∈ c, x ∈ walk.1 →
    (∃ y ∈ c, y ∈ visited) ∨ walk.2 = some c

/-- A climb that stops at a node of no cycle, or of one that was reached before. -/
theorem Climbing.stop (climbing : Climbing state visited path cursor)
    (stops : ∀ key, cursor = some key → key ∈ visited ∨ ∀ node, ¬ state.LiveAt key node) :
    Climbed state visited path (path, none) := by
  refine ⟨fun _ => id, climbing.fresh, by simp, fun c canonical x inside mem => .inl ?_⟩
  obtain ⟨key, inside', next⟩ := climbing.follows canonical.toIsCycle inside mem
  rcases stops key next with before | dead
  · exact ⟨key, inside', before⟩
  · obtain ⟨_, -, node, live, -⟩ := canonical.next inside'
    exact absurd live (dead node)

theorem Climbing.close (climbing : Climbing state visited path (some key))
    (mem : key ∈ path) : Climbed state visited path
      (path, some (canonicalCycle (path.drop (path.idxOf key)))) := by
  have ends := getLast?_eq_some_getLast (ne_nil_of_mem mem)
  have cycle := isCycle_drop climbing.distinct climbing.chain mem ends
    ((climbing.next _ ends key).2 rfl)
  obtain ⟨turned, canonical⟩ := canonicalCycle_spec cycle
  refine ⟨fun _ => id, climbing.fresh, ?_, fun c canonical' x inside mem' => .inr ?_⟩
  · rintro _ ⟨⟩
    exact ⟨canonical, fun x inside => mem_of_mem_drop (turned.mem_iff.2 inside)⟩
  · obtain ⟨_, inside', ⟨⟩⟩ := climbing.follows canonical'.toIsCycle inside mem'
    have here : key ∈ path.drop (path.idxOf key) := by
      refine mem_of_mem_head? ?_
      rw [head?_drop, getElem?_idxOf mem]
      rfl
    have same := cycle.isRotated parentLink_unique canonical'.toIsCycle here inside'
    rw [canonical.eq_of_isRotated canonical' (turned.symm.trans same)]

theorem climb_spec (climbing : Climbing state visited path cursor) :
    Climbed state visited path (climb state visited path cursor) := by
  fun_induction climb with
  | case1 path => exact climbing.stop nofun
  | case2 path key dead =>
    refine climbing.stop ?_
    rintro _ ⟨⟩
    refine .inr fun node live => ?_
    rw [← isLive_iff] at live
    simp [live.1, live.2] at dead
  | case3 path key node found mem => exact climbing.close mem
  | case4 path key node found offPath before =>
    refine climbing.stop ?_
    rintro _ ⟨⟩
    exact .inl before
  | case5 path key node found offPath new ih =>
    have live := isLive_iff.1 (filter_eq_some_iff.1 found)
    have walked := ih (climbing.enter live offPath new)
    exact { walked with kept := fun x mem => walked.kept (mem_append_left _ mem) }

theorem climb_start (live : state.LiveAt key node) (new : key ∉ visited) :
    climb state visited [] (some key) = climb state visited [key] node.parentId := by
  have found := filter_eq_some_iff.2 (isLive_iff.2 live)
  rw [climb]
  split <;> simp_all

/-- A node that its own links lead back to is climbed from until a cycle is closed. -/
theorem climb_returns (first : visited = [])
    (next : ∃ key, cursor = some key ∧ Relation.TransGen (ParentLink state) key key) :
    (climb state visited path cursor).2 ≠ none := by
  fun_induction climb with
  | case1 => obtain ⟨_, ⟨⟩, -⟩ := next
  | case2 path key dead =>
    obtain ⟨_, ⟨⟩, returns⟩ := next
    obtain ⟨_, ⟨node, live, -⟩, -⟩ := Relation.TransGen.head'_iff.1 returns
    rw [← isLive_iff] at live
    simp [live.1, live.2] at dead
  | case3 => nofun
  | case4 path key node found offPath before => simp [first] at before
  | case5 path key node found offPath new ih =>
    obtain ⟨_, ⟨⟩, returns⟩ := next
    obtain ⟨parent, link, back⟩ := Relation.TransGen.head'_iff.1 returns
    have live := isLive_iff.1 (filter_eq_some_iff.1 found)
    exact ih ⟨parent, (parentLink_iff live).1 link, .tail' back link⟩

theorem exists_canonical (returns : Relation.TransGen (ParentLink state) id id) :
    ∃ c, Canonical (ParentLink state) c := by
  have start : Climbing state [] [] (some id) := ⟨.nil, .nil, nofun, nofun⟩
  obtain ⟨c, found⟩ := ne_none_iff_exists'.1 (climb_returns rfl ⟨id, rfl, returns⟩)
  exact ⟨c, ((climb_spec start).canonical c found).1⟩

variable (state) in
/-- The cycles found so far are those that the nodes visited so far are on. -/
structure Scanned (scan : List NodeId × List (List NodeId)) : Prop where
  canonical : ∀ c ∈ scan.2, Canonical (ParentLink state) c ∧ c ⊆ scan.1
  once : scan.2.Nodup
  complete : ∀ c, Canonical (ParentLink state) c → ∀ x ∈ c, x ∈ scan.1 → c ∈ scan.2

variable {scan : List NodeId × List (List NodeId)}

theorem Scanned.climbed (scanned : Scanned state scan) {start : List NodeId}
    {walk : List NodeId × Option (List NodeId)} (climbed : Climbed state scan.1 start walk) :
    Scanned state (scan.1 ++ walk.1, scan.2 ++ walk.2.toList) where
  canonical c mem := by
    rcases mem_append.1 mem with mem | mem
    · obtain ⟨canonical, inside⟩ := scanned.canonical c mem
      exact ⟨canonical, fun x mem => mem_append_left _ (inside mem)⟩
    · obtain ⟨canonical, inside⟩ := climbed.canonical c (mem_toList.1 mem)
      exact ⟨canonical, fun x mem => mem_append_right _ (inside mem)⟩
  once := by
    refine nodup_append.2 ⟨scanned.once, by cases walk.2 <;> simp, ?_⟩
    rintro c mem _ mem' rfl
    obtain ⟨canonical, inside⟩ := climbed.canonical c (mem_toList.1 mem')
    obtain ⟨x, here⟩ := exists_mem_of_ne_nil c canonical.some
    exact climbed.fresh x (inside here) ((scanned.canonical c mem).2 here)
  complete c canonical x here mem := by
    rcases mem_append.1 mem with mem | mem
    · exact mem_append_left _ (scanned.complete c canonical x here mem)
    · rcases climbed.complete c canonical x here mem with ⟨y, here, mem⟩ | found
      · exact mem_append_left _ (scanned.complete c canonical y here mem)
      · exact mem_append_right _ (by simp [found])

theorem scanFrom_spec (scanned : Scanned state scan)
    (stored : state.nodes[entry.1]? = some entry.2) :
    Scanned state (scanFrom state scan entry) ∧ scan.1 ⊆ (scanFrom state scan entry).1 ∧
      (state.LiveAt entry.1 entry.2 → entry.1 ∈ (scanFrom state scan entry).1) := by
  rw [scanFrom]
  split
  · rename_i skipped
    refine ⟨scanned, fun _ => id, fun live => ?_⟩
    rcases skipped with dead | before
    · simp [(isLive_iff.2 live).2] at dead
    · exact before
  · rename_i entered
    rw [not_or, Bool.not_eq_true', Bool.not_eq_false] at entered
    have live := isLive_iff.1 ⟨stored, entered.1⟩
    have start : Climbing state scan.1 [] (some entry.1) := ⟨.nil, .nil, nofun, nofun⟩
    have climbed := climb_spec (start.enter live not_mem_nil entered.2)
    simp only [climb_start live entered.2]
    exact ⟨scanned.climbed climbed, fun _ => mem_append_left _,
      fun _ => mem_append_right _ (climbed.kept (by simp))⟩

theorem foldl_scanFrom (scanned : Scanned state scan) {l : List (NodeId × MaterializedNode)}
    (stored : ∀ entry ∈ l, state.nodes[entry.1]? = some entry.2) :
    Scanned state (l.foldl (scanFrom state) scan) ∧ scan.1 ⊆ (l.foldl (scanFrom state) scan).1 ∧
      ∀ entry ∈ l, state.LiveAt entry.1 entry.2 →
        entry.1 ∈ (l.foldl (scanFrom state) scan).1 := by
  induction l generalizing scan with
  | nil => exact ⟨scanned, fun _ => id, nofun⟩
  | cons entry l ih =>
    obtain ⟨scanned', more, reached⟩ := scanFrom_spec scanned (stored entry (by simp))
    obtain ⟨all, more', visited⟩ := ih scanned' fun e mem => stored e (mem_cons_of_mem _ mem)
    refine ⟨all, fun _ mem => more' (more mem), fun e mem live => ?_⟩
    rcases mem_cons.1 mem with rfl | mem
    · exact more' (reached live)
    · exact visited e mem live

theorem parentCycles_spec : (parentCycles state).Nodup ∧
    ∀ c, c ∈ parentCycles state ↔ Canonical (ParentLink state) c := by
  have none : Scanned state ([], []) := ⟨nofun, .nil, nofun⟩
  obtain ⟨scanned, -, visited⟩ := foldl_scanFrom none fun entry mem =>
    mem_toList_iff_getElem?_eq_some.1 mem
  refine ⟨scanned.once, fun c => ⟨fun mem => (scanned.canonical c mem).1, fun canonical => ?_⟩⟩
  obtain ⟨x, here⟩ := exists_mem_of_ne_nil c canonical.some
  obtain ⟨_, -, node, live, -⟩ := canonical.next here
  exact scanned.complete c canonical x here
    (visited (x, node) (mem_toList_iff_getElem?_eq_some.2 live.1) live)

end Cycles

/-- What the checker is for. -/
structure Consistent (state : DocumentState) : Prop where
  keyed : ∀ (id : NodeId) (n : MaterializedNode), state.nodes[id]? = some n → id = n.id
  anchored : ∀ id n parent, state.LiveAt id n → n.parentId = some parent →
    ∃ p, state.LiveAt parent p
  acyclic : ∀ id, ¬ Relation.TransGen (ParentLink state) id id
  unambiguous : ∀ id id' n n' name, state.LiveAt id n → state.LiveAt id' n' → name ≠ "" →
    n.varName = some name → n'.varName = some name → id = id'

theorem checkParent_eq_nil : checkParent state key node = [] ↔
      ∀ parent, node.parentId = some parent → ∃ p, state.LiveAt parent p := by
  simp only [checkParent, ← isLive_iff]
  cases node.parentId with
  | none => simp
  | some parent => cases stored : state.nodes[parent]? <;> simp [stored]

theorem checkNodes_eq_nil : state.nodes.toList.flatMap (checkNode state) = [] ↔
    (∀ (id : NodeId) (n : MaterializedNode), state.nodes[id]? = some n → id = n.id) ∧
      ∀ id n parent, state.LiveAt id n → n.parentId = some parent → ∃ p, state.LiveAt parent p := by
  have one (id : NodeId) (n : MaterializedNode) : checkNode state (id, n) = [] ↔ id = n.id ∧
      (isLive state id n = true →
        ∀ parent, n.parentId = some parent → ∃ p, state.LiveAt parent p) := by
    simp [checkNode, checkParent_eq_nil]
  simp only [flatMap_eq_nil_iff, Prod.forall, mem_toList_iff_getElem?_eq_some, one]
  constructor
  · intro clean
    refine ⟨fun id n stored => (clean id n stored).1, fun id n parent live => ?_⟩
    exact (clean id n live.1).2 (isLive_iff.2 live).2 parent
  · rintro ⟨keyed, anchored⟩ id n stored
    exact ⟨keyed id n stored, fun live parent => anchored id n parent (isLive_iff.1 ⟨stored, live⟩)⟩

theorem liveName_eq_some {n : MaterializedNode} {name : String} :
    state.nodes[id]? = some n ∧ liveName state (id, n) = some name ↔
      state.LiveAt id n ∧ n.varName = some name ∧ name ≠ "" := by
  simp [liveName, ← isLive_iff, definedVar_eq_some, and_assoc]

theorem duplicateNames_eq_nil : duplicateNames state = [] ↔
    ∀ id id' n n' name, state.LiveAt id n → state.LiveAt id' n' → name ≠ "" →
      n.varName = some name → n'.varName = some name → id = id' := by
  have listed (name : String) (id : NodeId) (n : MaterializedNode) :
      (id, n) ∈ (state.nodes.toList.filter fun entry => liveName state entry = some name) ↔
        state.LiveAt id n ∧ n.varName = some name ∧ name ≠ "" := by
    simp [← liveName_eq_some]
  have few : duplicateNames state = [] ↔ ∀ name,
      (state.nodes.toList.filter fun entry => liveName state entry = some name).length ≤ 1 := by
    rw [← length_index_le Prod.fst, duplicateNames]
    simp
  rw [few]
  constructor
  · intro few id id' n n' name live live' some varName varName'
    obtain ⟨i, within, here⟩ := getElem_of_mem ((listed name id n).2 ⟨live, varName, some⟩)
    obtain ⟨j, within', there⟩ := getElem_of_mem ((listed name id' n').2 ⟨live', varName', some⟩)
    have short := few name
    obtain rfl : i = j := by omega
    exact congrArg Prod.fst (here.symm.trans there)
  · intro unambiguous name
    have apart := (distinct_keys_toList (t := state.nodes)).filter fun entry =>
      liveName state entry = some name
    have mem := listed name
    generalize (state.nodes.toList.filter fun entry => liveName state entry = some name) = l at *
    rcases l with _ | ⟨⟨id, n⟩, _ | ⟨⟨id', n'⟩, l⟩⟩
    · simp
    · simp
    · obtain ⟨live, varName, some⟩ := (mem id n).1 (by simp)
      obtain ⟨live', varName', -⟩ := (mem id' n').1 (by simp)
      have same := unambiguous id id' n n' name live live' some varName varName'
      simp [same] at apart

theorem not_mem_checkNode : .parentCycle c ∉ checkNode state entry := by
  simp only [checkNode, checkParent]
  repeat' split
  all_goals simp

theorem count_parentCycle (c : List NodeId) :
    (checkInvariants state).count (.parentCycle c) = (parentCycles state).count c := by
  have nodes : (state.nodes.toList.flatMap (checkNode state)).count (.parentCycle c) = 0 :=
    count_eq_zero.2 fun mem => not_mem_checkNode (mem_flatMap.1 mem).choose_spec.2
  have names : ((duplicateNames state).map fun entry =>
      InvariantViolation.duplicateVarName entry.1 entry.2).count (.parentCycle c) = 0 :=
    count_eq_zero.2 (by simp)
  rw [checkInvariants, count_append, count_append,
    count_map_of_injective _ _ fun _ _ => InvariantViolation.parentCycle.inj]
  omega

theorem mem_parentCycle :
    .parentCycle c ∈ checkInvariants state ↔ Canonical (ParentLink state) c := by
  rw [← count_pos_iff, count_parentCycle, count_pos_iff, parentCycles_spec.2]

/-- The checker is silent exactly on a consistent state, and it reports every cycle of
parents once, from its smallest node on, and no other. -/
theorem check_invariants_exact (state : DocumentState) :
    (checkInvariants state = [] ↔ Consistent state) ∧
      (∀ c, .parentCycle c ∈ checkInvariants state → Canonical (ParentLink state) c) ∧
      ∀ d, IsCycle (ParentLink state) d → ∃ c, d.IsRotated c ∧
        (checkInvariants state).count (.parentCycle c) = 1 ∧
        ∀ c', .parentCycle c' ∈ checkInvariants state → d.IsRotated c' → c' = c := by
  refine ⟨?_, fun c => mem_parentCycle.1, fun d cycle => ?_⟩
  · have acyclic : parentCycles state = [] ↔
        ∀ id, ¬ Relation.TransGen (ParentLink state) id id := by
      simp only [eq_nil_iff_forall_not_mem, parentCycles_spec.2]
      constructor
      · intro none id returns
        obtain ⟨c, canonical⟩ := exists_canonical returns
        exact none c canonical
      · intro acyclic c canonical
        obtain ⟨x, here⟩ := exists_mem_of_ne_nil c canonical.some
        exact acyclic x (canonical.transGen here here)
    rw [checkInvariants, append_eq_nil_iff, append_eq_nil_iff, map_eq_nil_iff, map_eq_nil_iff,
      checkNodes_eq_nil, acyclic, duplicateNames_eq_nil]
    constructor
    · rintro ⟨⟨⟨keyed, anchored⟩, acyclic⟩, unambiguous⟩
      exact ⟨keyed, anchored, acyclic, unambiguous⟩
    · rintro ⟨keyed, anchored, acyclic, unambiguous⟩
      exact ⟨⟨⟨keyed, anchored⟩, acyclic⟩, unambiguous⟩
  · obtain ⟨turned, canonical⟩ := canonicalCycle_spec cycle
    refine ⟨canonicalCycle d, turned, ?_, fun c' reported turned' => ?_⟩
    · rw [count_parentCycle]
      exact count_eq_one_of_mem parentCycles_spec.1 ((parentCycles_spec.2 _).2 canonical)
    · have canonical' := mem_parentCycle.1 reported
      exact canonical'.eq_of_isRotated canonical (turned'.symm.trans turned)

end Dynodoc.Integrity
