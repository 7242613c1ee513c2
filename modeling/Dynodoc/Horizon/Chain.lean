import Dynodoc.Horizon.Prune

/-! A repository that grows and is cut at one horizon after another. -/
namespace Dynodoc.Horizon
open Std (ExtTreeMap ExtTreeSet)
open Checkpoint (Address)
open Log (Hashing Uuid)
open Loop OrderedMap Sorted DepthFirst List SkeletonEntry Decision Horizon Log Function

variable {entry : SkeletonEntry} {a root : Address} {edge : FrontierEdge} {heads : List HeadRef}
  {env : Hashing} {result : HorizonPlan} {policy : Policy} {key : StateKey}

/-- A commit whose body is stored, with the height column. -/
structure Stored where
  address : Address
  commit : Commit
  bytes : Nat
  height : Nat

variable {stored : Stored} {added : List Stored}

def Stored.retained (stored : Stored) : Retained :=
  ⟨stored.address, stored.commit.parents, stored.height, stored.commit.fileKeys⟩

def Stored.call (stored : Stored) : Call :=
  .commit stored.address stored.commit stored.bytes (some stored.height)

structure Repository where
  project : Uuid
  commits : List Stored
  heads : List HeadRef
  /-- Oldest first. -/
  horizons : List HorizonRows
  /-- The states whose objects are all stored. -/
  present : ExtTreeSet StateKey

variable {repo : Repository}

/-- What happens between two horizons, and how the next one is planned. -/
structure Step where
  added : List Stored
  heads : List HeadRef
  holds : List Hold
  objects : ObjectGraph
  declared : List (StateKey × Nat)
  policy : Policy
  options : PlanOptions

variable {step : Step}

namespace Repository

variable (env : Hashing) (repo : Repository)

def empty (project : Uuid) : Repository := ⟨project, [], [], [], ∅⟩

def skeleton : List SkeletonEntry := repo.horizons.flatMap HorizonRows.skeleton

def frontier : List FrontierEdge := repo.horizons.flatMap HorizonRows.frontier

def releasedStates : List StateKey := repo.horizons.flatMap HorizonRows.releasedStates

def check : Except Error Unit :=
  checkState env repo.present (repo.commits.map Stored.retained) repo.horizons repo.heads

/-- New commits come with their states. -/
def grow (added : List Stored) : Repository :=
  { repo with
    commits := repo.commits ++ added
    present := repo.present.insertMany (added.flatMap fun stored => stored.commit.fileKeys) }

def calls (step : Step) : List Call :=
  repo.commits.map Stored.call ++ step.heads.map .branch ++ repo.skeleton.map .skeleton ++
    step.holds.map .hold ++ step.declared.map fun declared => .stateObject declared.1 declared.2

def release (heads : List HeadRef) (result : HorizonPlan) : Repository :=
  { repo with
    commits := repo.commits.filter fun stored => stored.address ∈ result.sets.retained
    heads := heads
    horizons := repo.horizons ++ [⟨result.draftRecord (repo.horizons.length + 1), result.sets.skeleton,
      result.sets.frontier, result.sets.releasedStates⟩]
    present := repo.present.filter (· ∉ result.sets.releasedStates) }

def advance (step : Step) : Except Error Repository := do
  let grown := repo.grow step.added
  let result ← outcome env repo.project step.objects (grown.calls step) step.policy step.options
  .ok (grown.release step.heads result)

end Repository

/-- Only new commits are added, they name no released state, and the policy releases commits
and keeps the topology. -/
structure Step.Allowed (repo : Repository) (step : Step) : Prop where
  history : step.policy.tier = .history
  keep : step.policy.topology = .keep
  fresh : ((repo.commits ++ step.added).map Stored.address).Nodup
  unreleased : ∀ stored ∈ step.added, ∀ key ∈ stored.commit.fileKeys, key ∉ repo.releasedStates

instance (repo : Repository) (step : Step) : Decidable (step.Allowed repo) :=
  decidable_of_iff (step.policy.tier = .history ∧ step.policy.topology = .keep ∧
      ((repo.commits ++ step.added).map Stored.address).Nodup ∧
      ∀ stored ∈ step.added, ∀ key ∈ stored.commit.fileKeys, key ∉ repo.releasedStates)
    ⟨fun ⟨history, keep, fresh, unreleased⟩ => ⟨history, keep, fresh, unreleased⟩,
      fun ⟨history, keep, fresh, unreleased⟩ => ⟨history, keep, fresh, unreleased⟩⟩

/-- The repositories that steps lead to, each step restricted by what it may do. -/
inductive Run (env : Hashing) (restriction : Repository → Step → Prop) : Repository → Prop
  | start (project : Uuid) : Run env restriction (.empty project)
  | step {repo next : Repository} (step : Step) (run : Run env restriction repo)
      (allowed : step.Allowed repo) (advanced : repo.advance env step = .ok next)
      (restricted : restriction repo step) : Run env restriction next

/-- The height on record of a commit. -/
def Repository.Known (repo : Repository) (a : Address) (height : Nat) : Prop :=
  (∃ stored ∈ repo.commits, stored.address = a ∧ stored.height = height) ∨
    ∃ entry ∈ repo.skeleton, entry.address = a ∧ entry.height = height

def Repository.EdgeMatches (repo : Repository) (edge : FrontierEdge) : Prop :=
  (∃ stored ∈ repo.commits, stored.address = edge.child ∧ edge.parent ∈ stored.commit.parents) ∧
    ∃ entry ∈ repo.skeleton, entry.address = edge.parent ∧ entry.height = edge.parentHeight

/-- What the check looks at, and what a step needs to keep it. -/
structure Repository.Coherent (env : Hashing) (repo : Repository) : Prop where
  distinct : (repo.commits.map Stored.address).Nodup
  once : (repo.skeleton.map address).Nodup
  apart : ∀ entry ∈ repo.skeleton, ∀ stored ∈ repo.commits, stored.address ≠ entry.address
  rows : ∀ rows ∈ repo.horizons, rowsMatch env rows = .ok true
  parents : ∀ stored ∈ repo.commits, ∀ parent ∈ stored.commit.parents, ∃ height, repo.Known parent height
  heights : ∀ entry ∈ repo.skeleton, entry.parents.length ≤ 2 ∧
    ∃ heights, List.Forall₂ repo.Known entry.parents heights ∧ entry.height = above heights
  edges : ∀ edge ∈ repo.frontier, repo.EdgeMatches edge
  heads : ∀ head ∈ repo.heads, ∃ stored ∈ repo.commits, stored.address = head.commit
  unreleased : ∀ stored ∈ repo.commits, ∀ key ∈ stored.commit.fileKeys, key ∉ repo.releasedStates
  absent : ∀ key ∈ repo.releasedStates, key ∉ repo.present
  held : ∀ stored ∈ repo.commits, ∀ key ∈ stored.commit.fileKeys, key ∈ repo.present

def Repository.bodies (repo : Repository) : ExtTreeMap Address Retained :=
  .ofList ((repo.commits.map Stored.retained).map fun commit => (commit.address, commit))

def Repository.entries (repo : Repository) : ExtTreeMap Address SkeletonEntry :=
  .ofList (repo.skeleton.map fun entry => (entry.address, entry))

theorem mem_repository_bodies (distinct : (repo.commits.map Stored.address).Nodup) {commit : Retained} :
    repo.bodies[a]? = some commit ↔
      ∃ stored ∈ repo.commits, stored.address = a ∧ stored.retained = commit := by
  rw [Repository.bodies, getElem?_ofList (by simpa [comp_def, Stored.retained] using distinct)]
  simp [Stored.retained]

theorem foldlM_addBody (distinct : (repo.commits.map Stored.address).Nodup) :
    (repo.commits.map Stored.retained).foldlM addBody ∅ = .ok repo.bodies :=
  foldlM_insert Retained.address (fun m commit _ new => if_neg new)
    (by simpa [comp_def, Stored.retained] using distinct)

namespace Repository.Coherent

variable (sound : repo.Coherent env)

include sound

theorem bodies {commit : Retained} : repo.bodies[a]? = some commit ↔
    ∃ stored ∈ repo.commits, stored.address = a ∧ stored.retained = commit :=
  mem_repository_bodies sound.distinct

theorem entries : repo.entries[a]? = some entry ↔ entry ∈ repo.skeleton ∧ entry.address = a := by
  rw [Repository.entries, getElem?_ofList (by simpa [comp_def] using sound.once)]
  simp only [mem_map, Prod.mk.injEq]
  constructor
  · rintro ⟨_, mem, rfl, rfl⟩
    exact ⟨mem, rfl⟩
  · rintro ⟨mem, rfl⟩
    exact ⟨entry, mem, rfl, rfl⟩

theorem heightAt {height : Nat} (known : repo.Known a height) :
    Horizon.heightAt repo.bodies repo.entries a = some height := by
  rw [Horizon.heightAt]
  rcases known with ⟨stored, mem, rfl, rfl⟩ | ⟨entry, mem, rfl, rfl⟩
  · rw [sound.bodies.2 ⟨stored, mem, rfl, rfl⟩]
    rfl
  · have absent : repo.bodies[entry.address]? = none := by
      rw [Option.eq_none_iff_forall_ne_some]
      intro commit found
      obtain ⟨stored, inside, same, -⟩ := sound.bodies.1 found
      exact sound.apart entry mem stored inside same
    rw [absent, sound.entries.2 ⟨mem, rfl⟩]
    rfl

theorem checkParent (mem : stored ∈ repo.commits) {parent : Address}
    (isParent : parent ∈ stored.commit.parents) :
    Horizon.checkParent repo.bodies repo.entries stored.retained parent = .ok () := by
  rw [Horizon.checkParent, if_neg]
  rintro ⟨notStored, notReleased⟩
  obtain ⟨height, ⟨other, inside, rfl, -⟩ | ⟨entry, inside, rfl, -⟩⟩ :=
    sound.parents stored mem parent isParent
  · exact notStored (of_getElem?_eq_some (sound.bodies.2 ⟨other, inside, rfl, rfl⟩))
  · exact notReleased (of_getElem?_eq_some (sound.entries.2 ⟨inside, rfl⟩))

theorem raiseHeights (entry : SkeletonEntry) {parents : List Address} {heights : List Nat}
    (known : List.Forall₂ repo.Known parents heights) (most : Nat) :
    parents.foldlM (raiseHeight repo.bodies repo.entries entry) most =
      .ok (heights.foldl (fun most height => max most (height + 1)) most) := by
  induction known generalizing most with
  | nil => rfl
  | cons first _ ih =>
    rw [foldlM_cons, raiseHeight, sound.heightAt first]
    exact ih _

theorem checkHeight (mem : entry ∈ repo.skeleton) :
    checkHeight repo.bodies repo.entries entry = .ok () := by
  obtain ⟨few, heights, known, height⟩ := sound.heights entry mem
  rw [Horizon.checkHeight, sound.raiseHeights entry known]
  refine if_neg ?_
  rintro (many | wrong)
  · omega
  · exact wrong height

theorem checkEdge (mem : edge ∈ repo.frontier) :
    checkEdge repo.bodies repo.entries edge = .ok () := by
  obtain ⟨⟨stored, inside, child, isParent⟩, entry, released, parent, height⟩ := sound.edges edge mem
  refine if_pos ⟨?_, ?_⟩
  · rw [sound.bodies.2 ⟨stored, inside, child, rfl⟩]
    simpa [Stored.retained] using isParent
  · rw [sound.entries.2 ⟨released, parent⟩]
    simpa using height

theorem checkHead {head : HeadRef} (mem : head ∈ repo.heads) :
    checkHead repo.bodies (.ofList repo.releasedStates) head = .ok () := by
  obtain ⟨stored, inside, same⟩ := sound.heads head mem
  rw [Horizon.checkHead, sound.bodies.2 ⟨stored, inside, same, rfl⟩]
  refine if_neg ?_
  simpa [Stored.retained] using sound.unreleased stored inside

theorem check_ok : repo.check env = .ok () := by
  have entries : repo.skeleton.foldlM (addReleased repo.bodies) ∅ = .ok repo.entries := by
    refine foldlM_insert address (fun m entry mem new => if_neg ?_) sound.once
    rintro (stored | old)
    · obtain ⟨commit, found⟩ := mem_iff_exists.1 stored
      obtain ⟨other, inside, same, -⟩ := sound.bodies.1 found
      exact sound.apart entry mem other inside same
    · exact new old
  have rows : repo.horizons.forM (checkRows env) = .ok () :=
    forM_eq_ok.2 fun rows mem => by rw [checkRows, sound.rows rows mem]; rfl
  have parents : (repo.commits.map Stored.retained).forM (fun commit =>
      commit.parents.forM (Horizon.checkParent repo.bodies repo.entries commit)) = .ok () := by
    refine forM_eq_ok.2 fun commit mem => forM_eq_ok.2 fun parent isParent => ?_
    obtain ⟨stored, inside, rfl⟩ := mem_map.1 mem
    exact sound.checkParent inside isParent
  have heights : (repo.entries.toList.map Prod.snd).forM
      (Horizon.checkHeight repo.bodies repo.entries) = .ok () := by
    refine forM_eq_ok.2 fun entry mem => ?_
    obtain ⟨⟨a, _⟩, inside, rfl⟩ := mem_map.1 mem
    exact sound.checkHeight (sound.entries.1 (ExtTreeMap.mem_toList_iff_getElem?_eq_some.1 inside)).1
  have edges : repo.frontier.forM (Horizon.checkEdge repo.bodies repo.entries) = .ok () :=
    forM_eq_ok.2 fun edge mem => sound.checkEdge mem
  have heads : repo.heads.forM (Horizon.checkHead repo.bodies (.ofList repo.releasedStates)) = .ok () :=
    forM_eq_ok.2 fun head mem => sound.checkHead mem
  have absent : (ExtTreeSet.ofList repo.releasedStates).toList.forM (checkAbsent repo.present) =
      .ok () := by
    refine forM_eq_ok.2 fun key mem => if_neg (sound.absent key ?_)
    simpa using mem
  have held : (repo.commits.map Stored.retained).forM (fun commit => commit.states.forM
      (checkPresent (.ofList repo.releasedStates) repo.present commit)) = .ok () := by
    refine forM_eq_ok.2 fun commit mem => forM_eq_ok.2 fun key isKey => if_neg ?_
    obtain ⟨stored, inside, rfl⟩ := mem_map.1 mem
    exact fun missing => missing.1 (sound.held stored inside key isKey)
  exact bind_eq_ok.2 ⟨_, foldlM_addBody sound.distinct, bind_eq_ok.2 ⟨_, entries, bind_eq_ok.2 ⟨(), rows,
    bind_eq_ok.2 ⟨(), parents, bind_eq_ok.2 ⟨(), heights, bind_eq_ok.2 ⟨(), edges,
    bind_eq_ok.2 ⟨(), heads, bind_eq_ok.2 ⟨(), absent, held⟩⟩⟩⟩⟩⟩⟩⟩

end Repository.Coherent

section Planning

variable {view : HistoryView} {graph : Graph}

def Stored.resolved (stored : Stored) : Resolved :=
  stored.commit.resolved stored.address stored.bytes (some stored.height)

/-- A view of a repository with its new heads. -/
structure Repository.Shown (repo : Repository) (heads : List HeadRef) (view : HistoryView) : Prop where
  commits : ∀ commit, commit ∈ view.content.commits ↔
    ∃ stored ∈ repo.commits, stored.resolved = commit
  skeleton : view.skeleton = repo.skeleton
  branches : view.branches = heads

open Call

theorem shown_of_build {objects : ObjectGraph} (distinct : (repo.commits.map Stored.address).Nodup)
    (built : HistoryView.build repo.project objects (repo.calls step) = .ok view) :
    repo.Shown step.heads view := by
  have content := (describes_of_build built).content
  have commits : (repo.calls step).filterMap commit? = repo.commits.map Stored.resolved := by
    simp [Repository.calls, comp_def, commit?, Stored.call, Stored.resolved]
  have skeleton : (repo.calls step).filterMap skeleton? = repo.skeleton := by
    simp [Repository.calls, comp_def, skeleton?, Stored.call]
  have branches : (repo.calls step).filterMap branch? = step.heads := by
    simp [Repository.calls, comp_def, branch?, Stored.call]
  refine ⟨fun commit => ?_, ?_, ?_⟩
  · rw [content, Content.run, Content.run_commits, commits, mem_foldl_addResolved]
    · simp [Content.empty]
    · simp only [Content.empty, nil_append, mem_map]
      rintro _ ⟨left, inLeft, rfl⟩ _ ⟨right, inRight, rfl⟩ same
      rw [inj_on_of_nodup_map distinct inLeft inRight same]
  · exact (congrArg Content.skeleton content).trans ((Content.run_skeleton _).trans skeleton)
  · exact (congrArg Content.branches content).trans ((Content.run_branches _).trans branches)

namespace Repository.Shown

variable (shown : repo.Shown heads view)

include shown

theorem bodies {node : CommitNode} : view.bodies[a]? = some node ↔
    ∃ stored ∈ repo.commits, stored.address = a ∧ stored.resolved.node = node := by
  rw [mem_bodies_content]
  constructor
  · rintro ⟨commit, mem, rfl, rfl⟩
    obtain ⟨stored, inside, rfl⟩ := (shown.commits commit).1 mem
    exact ⟨stored, inside, rfl, rfl⟩
  · rintro ⟨stored, inside, rfl, rfl⟩
    exact ⟨stored.resolved, (shown.commits _).2 ⟨stored, inside, rfl⟩, rfl, rfl⟩

theorem mem_bodies : a ∈ view.bodies ↔ a ∈ repo.commits.map Stored.address := by
  rw [mem_iff_exists]
  simp [shown.bodies]

variable (built : graph.Built view)
include built

theorem once : (repo.skeleton.map address).Nodup := shown.skeleton ▸ built.distinct

theorem apart (mem : entry ∈ repo.skeleton)
    (inside : stored ∈ repo.commits) : stored.address ≠ entry.address := by
  intro same
  refine built.apart entry (shown.skeleton ▸ mem) (shown.mem_bodies.2 ?_)
  exact mem_map.2 ⟨stored, inside, same⟩

theorem parents (inside : stored ∈ repo.commits) :
    graph.parents stored.address = stored.commit.parents := by
  rw [built.parents, HistoryView.parents, parentsIn, shown.bodies.2 ⟨stored, inside, rfl, rfl⟩]
  rfl

theorem height (inside : stored ∈ repo.commits) : graph.height stored.address = stored.height := by
  obtain ⟨commit, mem, resolved⟩ := mem_map.1 ((shown.commits _).2 ⟨stored, inside, rfl⟩)
  have node : commit.toCommitNode = stored.resolved.node := congrArg Resolved.node resolved
  have checked := built.checked commit mem stored.height
  rw [node] at checked
  exact (checked rfl).symm

theorem known_of_value {height : Nat} (mem : a ∈ view.bodies ∨ a ∈ view.released)
    (value : valueAt graph.marks a = some height) : repo.Known a height := by
  by_cases body : a ∈ view.bodies
  · obtain ⟨stored, inside, rfl⟩ := mem_map.1 (shown.mem_bodies.1 body)
    refine .inl ⟨stored, inside, rfl, ?_⟩
    rw [← shown.height built inside, Graph.height, value]
    rfl
  · obtain ⟨entry, found⟩ := mem_iff_exists.1 (mem.resolve_left body)
    obtain ⟨listed, rfl⟩ := (mem_released_iff built.distinct).1 found
    refine .inr ⟨entry, shown.skeleton ▸ listed, rfl, ?_⟩
    have computed := (built.solved.1 _ _ value).2.1
    rw [heightFrom, OrderedMap.getElem?_eq_none_iff.2 body, found] at computed
    exact computed.symm

theorem heights (inside : stored ∈ repo.commits) :
    ∃ heights, List.Forall₂ repo.Known stored.commit.parents heights ∧ stored.height = above heights := by
  have body := shown.bodies.2 ⟨stored, inside, rfl, rfl⟩
  have mem : stored.address ∈ view.bodies := of_getElem?_eq_some body
  obtain ⟨height, value⟩ := Option.isSome_iff_exists.1 (built.solved.2 _ (.inl mem))
  obtain ⟨parentsSolved, computed, -⟩ := built.solved.1 _ _ value
  have parents : view.parents stored.address = stored.commit.parents := by
    rw [← built.parents, shown.parents built inside]
  rw [parents] at parentsSolved computed
  rw [heightFrom, body] at computed
  have same : height = stored.height := by
    rw [← shown.height built inside, Graph.height, value]
    rfl
  refine ⟨_, forall₂_filterMap fun parent isParent => ?_, same ▸ computed⟩
  obtain ⟨above, found⟩ := Option.isSome_iff_exists.1 (parentsSolved parent isParent)
  refine ⟨above, found, shown.known_of_value built ?_ found⟩
  refine built.known parent ((mem_named built.distinct built.apart).2 (.inl ⟨stored.address, ?_⟩))
  rwa [parents]

end Repository.Shown

def Stored.row (stored : Stored) : SkeletonEntry :=
  ⟨stored.address, stored.commit.parents, stored.height⟩

structure Repository.Planned (env : Hashing) (repo : Repository) (heads : List HeadRef)
    (result : HorizonPlan) : Prop where
  once : (repo.skeleton.map address).Nodup
  apart : ∀ entry ∈ repo.skeleton, ∀ stored ∈ repo.commits, stored.address ≠ entry.address
  heights : ∀ stored ∈ repo.commits, ∃ heights,
    List.Forall₂ repo.Known stored.commit.parents heights ∧ stored.height = above heights
  heads : ∀ head ∈ heads, ∃ stored ∈ repo.commits,
    stored.address ∈ result.sets.retained ∧ stored.address = head.commit
  skeleton : ∀ entry, entry ∈ result.sets.skeleton ↔
    ∃ stored ∈ repo.commits, stored.address ∉ result.sets.retained ∧ stored.row = entry
  distinct : (result.sets.skeleton.map address).Nodup
  frontier : ∀ edge ∈ result.sets.frontier, ∃ child ∈ repo.commits, ∃ parent ∈ repo.commits,
    child.address ∈ result.sets.retained ∧ parent.address ∉ result.sets.retained ∧
      parent.address ∈ child.commit.parents ∧ edge = ⟨child.address, parent.address, parent.height⟩
  states : ∀ key, key ∈ result.sets.releasedStates →
    ∀ stored ∈ repo.commits, stored.address ∈ result.sets.retained → key ∉ stored.commit.fileKeys
  rows : ∀ sequence, rowsMatch env ⟨result.draftRecord sequence, result.sets.skeleton,
    result.sets.frontier, result.sets.releasedStates⟩ = .ok true
  few : ∀ entry ∈ result.sets.skeleton, entry.parents.length ≤ 2

theorem leaf_of_rootOf {α : Type} {cmp : α → α → Ordering} {leaf : α → Except Error Address}
    {items : List α} (rooted : rootOf env cmp leaf items = .ok root) {item : α}
    (mem : item ∈ items) : ∃ hash, leaf item = .ok hash := by
  rw [rootOf] at rooted
  split at rooted
  · contradiction
  obtain ⟨hashes, mapped, -⟩ := bind_eq_ok.1 rooted
  obtain ⟨hash, -, found⟩ := exists_right_of_mem (mapM_eq_ok.1 mapped) (mem_sortBy.2 mem)
  exact ⟨hash, found⟩

theorem length_parents_le {entries : List SkeletonEntry}
    (rooted : skeletonRoot env entries = .ok root) (mem : entry ∈ entries) :
    entry.parents.length ≤ 2 := by
  obtain ⟨hash, leaf⟩ := leaf_of_rootOf rooted mem
  rw [skeletonLeaf] at leaf
  split at leaf
  · contradiction
  · omega

theorem rowsMatch_of_roots {rows : HorizonRows} (keep : "topology:drop" ∉ rows.record.evidence)
    (skeleton : skeletonRoot env rows.skeleton = .ok rows.record.roots.skeleton)
    (frontier : frontierRoot env rows.frontier = .ok rows.record.roots.frontier)
    (states : releasedStatesRoot env rows.releasedStates = .ok rows.record.roots.releasedStates)
    (counted : rows.skeleton.length = rows.record.counts.commitsReleased)
    (stateCount : rows.releasedStates.length = rows.record.counts.statesReleased) :
    rowsMatch env rows = .ok true := by
  simp [rowsMatch, skeleton, frontier, states, keep, counted, stateCount, bind, Except.bind, pure,
    Except.pure]

theorem drop_notMem_evidenceWords (keep : policy.topology = .keep)
    (held : List Hold) : "topology:drop" ∉ evidenceWords policy held := by
  have inputs : "merge_inputs:" ++ policy.protect.mergeInputs.text ≠ "topology:drop" := by
    cases policy.protect.mergeInputs <;> decide
  rw [evidenceWords]
  simp only [ExtTreeSet.mem_toList]
  grind

section Decided

variable {options : PlanOptions} {decision : Decision}
  (shown : repo.Shown heads view) (made : decision.Made view policy options)
  (history : policy.tier = .history)
include shown made

theorem Repository.Shown.row (inside : stored ∈ repo.commits) :
    decision.graph.row stored.address = stored.row := by
  rw [Graph.row, shown.parents made.built inside, shown.height made.built inside]
  rfl

include history

theorem Repository.Shown.retained : a ∈ (decision.split policy).retained ↔
    a ∈ repo.commits.map Stored.address ∧ a ∈ decision.kept := by
  rw [split, retained_history history, mem_filter, ExtTreeMap.mem_keys,
    made.built.bodies, shown.mem_bodies, decide_eq_true_eq]

theorem Repository.Shown.released : a ∈ (decision.split policy).released ↔
    ∃ stored ∈ repo.commits, stored.address ∉ (decision.split policy).retained ∧ stored.address = a := by
  rw [split, released_history history, mem_filter, ExtTreeMap.mem_keys,
    made.built.bodies, shown.mem_bodies, mem_map, decide_eq_true_eq]
  constructor
  · rintro ⟨⟨stored, inside, rfl⟩, gone⟩
    exact ⟨stored, inside, fun kept => gone ((shown.retained made history).1 kept).2, rfl⟩
  · rintro ⟨stored, inside, gone, rfl⟩
    refine ⟨⟨stored, inside, rfl⟩, fun kept => gone ?_⟩
    exact (shown.retained made history).2 ⟨mem_map_of_mem inside, kept⟩

theorem Repository.Shown.frontier (mem : edge ∈ (decision.split policy).frontier) :
    ∃ child ∈ repo.commits, ∃ parent ∈ repo.commits,
      child.address ∈ (decision.split policy).retained ∧
      parent.address ∉ (decision.split policy).retained ∧
      parent.address ∈ child.commit.parents ∧ edge = ⟨child.address, parent.address, parent.height⟩ := by
  obtain ⟨kept, isParent, gone, height⟩ := mem_frontierOf.1 mem
  obtain ⟨child, inside, address⟩ := mem_map.1 ((shown.retained made history).1 kept).1
  obtain ⟨parent, inside', gone, address'⟩ := (shown.released made history).1 gone
  rw [← address, shown.parents made.built inside] at isParent
  refine ⟨child, inside, parent, inside', address ▸ kept, gone, address' ▸ isParent, ?_⟩
  rw [← shown.height made.built inside', address, address', ← height]

omit made in
theorem Repository.Shown.released_state
    (gone : key ∈ decision.releasedStates view policy) (inside : stored ∈ repo.commits)
    (kept : stored.address ∈ (decision.split policy).retained) : key ∉ stored.commit.fileKeys := by
  intro isFile
  refine (mem_releasedStates.1 gone).2 ⟨stored.resolved, (shown.commits _).2 ⟨stored, inside, rfl⟩,
    .inl ⟨?_, ?_⟩⟩
  · rw [Decision.keepsFiles, keepsFiles, if_pos history]
    exact decide_eq_true kept
  · simpa [Stored.resolved, Commit.resolved] using isFile

end Decided

theorem planned_of_outcome (history : step.policy.tier = .history)
    (keep : step.policy.topology = .keep) (distinct : (repo.commits.map Stored.address).Nodup)
    (planned : outcome env repo.project step.objects (repo.calls step) step.policy step.options =
      .ok result) : repo.Planned env step.heads result := by
  obtain ⟨view, build, planned⟩ := bind_eq_ok.1 planned
  obtain ⟨decision, roots, digest, ⟨made⟩, -, rooted, -, rfl⟩ := plan_eq_ok.1 planned
  have shown := shown_of_build distinct build
  have rows : (decision.split step.policy).skeleton =
      (decision.split step.policy).released.map decision.graph.row := by
    rw [split, splitCommits, keep]
    rfl
  obtain ⟨retained, -, rooted⟩ := bind_eq_ok.1 rooted
  obtain ⟨skeleton, skeletonRooted, rooted⟩ := bind_eq_ok.1 rooted
  obtain ⟨frontier, frontierRooted, rooted⟩ := bind_eq_ok.1 rooted
  obtain ⟨states, statesRooted, rooted⟩ := bind_eq_ok.1 rooted
  cases rooted
  refine ⟨shown.once made.built, fun entry mem stored => shown.apart made.built mem,
    fun stored => shown.heights made.built, fun head mem => ?_, fun entry => ?_, ?_,
    fun edge => shown.frontier made history, fun key gone stored => shown.released_state history gone,
    fun sequence => ?_, fun entry => length_parents_le skeletonRooted⟩
  · have listed : head ∈ decision.heads := by
      rw [made.sorted, mem_sortBy, shown.branches]
      exact mem
    have body := (foldlM_addHead.1 made.headed).1 head listed
    rw [made.built.bodies, shown.mem_bodies] at body
    obtain ⟨stored, inside, address⟩ := mem_map.1 body
    refine ⟨stored, inside, (shown.retained made history).2 ⟨mem_map_of_mem inside, ?_⟩, address⟩
    exact address ▸ made.head_kept listed
  · show entry ∈ (decision.split step.policy).skeleton ↔ _
    rw [rows, mem_map]
    constructor
    · rintro ⟨a, released, rfl⟩
      obtain ⟨stored, inside, gone, rfl⟩ := (shown.released made history).1 released
      exact ⟨stored, inside, gone, (shown.row made inside).symm⟩
    · rintro ⟨stored, inside, gone, rfl⟩
      exact ⟨stored.address, (shown.released made history).2 ⟨stored, inside, gone, rfl⟩,
        shown.row made inside⟩
  · show ((decision.split step.policy).skeleton.map address).Nodup
    rw [rows, map_map, split, released_history history]
    have keys : decision.graph.bodies.keys.Nodup :=
      ExtTreeMap.distinct_keys.imp fun apart same => apart (Std.compare_eq_iff_eq.2 same)
    simpa [comp_def, Graph.row] using keys.filter _
  · have counted : (decision.split step.policy).skeleton.length =
        (decision.counts view step.policy).commitsReleased := by
      rw [rows, length_map]
      rfl
    have stateCount : (decision.releasedStates view step.policy).length =
        (decision.counts view step.policy).statesReleased := length_releasedStates
    exact rowsMatch_of_roots (drop_notMem_evidenceWords keep (heldOf view)) skeletonRooted
      frontierRooted statesRooted counted stateCount

end Planning

section Steps

variable {grown next : Repository}

/-- Every commit from which an earlier horizon has an edge is a head, on hold, protected, a merge base
or recent in the view that is planned, or such a commit needs it. -/
def KeepsFrontier (repo : Repository) (step : Step) : Prop :=
  ∀ view, HistoryView.build repo.project step.objects ((repo.grow step.added).calls step) = .ok view →
    ∀ edge ∈ repo.frontier, view.Kept step.policy step.options edge.child

theorem mem_release_commits : stored ∈ (repo.release heads result).commits ↔
    stored ∈ repo.commits ∧ stored.address ∈ result.sets.retained := by
  simp [Repository.release]

theorem release_skeleton :
    (repo.release heads result).skeleton = repo.skeleton ++ result.sets.skeleton := by
  simp [Repository.release, Repository.skeleton]

theorem release_frontier :
    (repo.release heads result).frontier = repo.frontier ++ result.sets.frontier := by
  simp [Repository.release, Repository.frontier]

theorem release_releasedStates : (repo.release heads result).releasedStates =
    repo.releasedStates ++ result.sets.releasedStates := by
  simp [Repository.release, Repository.releasedStates]

theorem mem_present : key ∈ ((repo.grow added).release heads result).present ↔
      (key ∈ repo.present ∨ ∃ stored ∈ added, key ∈ stored.commit.fileKeys) ∧
        key ∉ result.sets.releasedStates := by
  simp [Repository.grow, Repository.release]

theorem Repository.Known.grow {height : Nat} (known : repo.Known a height)
    (added : List Stored) : (repo.grow added).Known a height := by
  rcases known with ⟨stored, mem, facts⟩ | ⟨entry, mem, facts⟩
  · exact .inl ⟨stored, mem_append_left _ mem, facts⟩
  · exact .inr ⟨entry, mem, facts⟩

theorem Repository.Known.release {height : Nat} (planned : repo.Planned env heads result)
    (known : repo.Known a height) : (repo.release heads result).Known a height := by
  rcases known with ⟨stored, mem, rfl, rfl⟩ | ⟨entry, mem, facts⟩
  · by_cases kept : stored.address ∈ result.sets.retained
    · exact .inl ⟨stored, mem_release_commits.2 ⟨mem, kept⟩, rfl, rfl⟩
    · refine .inr ⟨stored.row, ?_, rfl, rfl⟩
      rw [release_skeleton]
      exact mem_append_right _ ((planned.skeleton _).2 ⟨stored, mem, kept, rfl⟩)
  · refine .inr ⟨entry, ?_, facts⟩
    rw [release_skeleton]
    exact mem_append_left _ mem

section Release

variable (planned : grown.Planned env heads result)
include planned

theorem release_once : ((grown.release heads result).skeleton.map address).Nodup := by
  rw [release_skeleton, map_append, nodup_append']
  refine ⟨planned.once, planned.distinct, fun a old new => ?_⟩
  obtain ⟨entry, mem, rfl⟩ := mem_map.1 old
  obtain ⟨row, mem', same⟩ := mem_map.1 new
  obtain ⟨stored, inside, -, rfl⟩ := (planned.skeleton row).1 mem'
  exact planned.apart entry mem stored inside same

theorem release_apart (mem : entry ∈ (grown.release heads result).skeleton)
    (inside : stored ∈ (grown.release heads result).commits) :
    stored.address ≠ entry.address := by
  obtain ⟨inside, kept⟩ := mem_release_commits.1 inside
  rw [release_skeleton, mem_append, planned.skeleton] at mem
  rcases mem with old | ⟨other, -, gone, rfl⟩
  · exact planned.apart entry old stored inside
  · exact fun same => gone (show other.row.address ∈ _ from same ▸ kept)

theorem release_edge (mem : edge ∈ result.sets.frontier) :
    (grown.release heads result).EdgeMatches edge := by
  obtain ⟨child, inside, parent, inside', kept, gone, isParent, rfl⟩ := planned.frontier edge mem
  refine ⟨⟨child, mem_release_commits.2 ⟨inside, kept⟩, rfl, isParent⟩, parent.row, ?_, rfl, rfl⟩
  rw [release_skeleton, mem_append]
  exact .inr ((planned.skeleton _).2 ⟨parent, inside', gone, rfl⟩)

end Release

/-- An earlier edge still matches when the commit that it leads from stays. -/
theorem release_earlier_edge (matching : repo.EdgeMatches edge)
    (fresh : ((repo.commits ++ added).map Stored.address).Nodup)
    (kept : ∃ stored ∈ ((repo.grow added).release heads result).commits, stored.address = edge.child) :
    ((repo.grow added).release heads result).EdgeMatches edge := by
  obtain ⟨⟨stored, mem, child, isParent⟩, entry, listed, facts⟩ := matching
  obtain ⟨again, inside, child'⟩ := kept
  have same : again = stored :=
    inj_on_of_nodup_map fresh (mem_release_commits.1 inside).1 (mem_append_left _ mem)
      (child'.trans child.symm)
  refine ⟨⟨again, inside, child', same ▸ isParent⟩, entry, ?_, facts⟩
  rw [release_skeleton]
  exact mem_append_left _ listed

/-- One horizon keeps the rows of the earlier ones right, as long as no commit that they have
an edge from is released. -/
theorem Repository.Coherent.advance (sound : repo.Coherent env) (allowed : step.Allowed repo)
    (advanced : repo.advance env step = .ok next)
    (keeps : ∀ edge ∈ repo.frontier, ∃ stored ∈ next.commits, stored.address = edge.child) :
    next.Coherent env := by
  obtain ⟨result, found, same⟩ := bind_eq_ok.1 advanced
  have planned : (repo.grow step.added).Planned env step.heads result :=
    planned_of_outcome allowed.history allowed.keep allowed.fresh found
  cases same
  have unreleased : ∀ stored ∈ repo.commits ++ step.added, ∀ key ∈ stored.commit.fileKeys,
      key ∉ repo.releasedStates := by
    intro stored mem
    rcases mem_append.1 mem with old | new
    · exact sound.unreleased stored old
    · exact allowed.unreleased stored new
  refine {
    distinct := (filter_sublist.map _).nodup allowed.fresh
    once := release_once planned
    apart := fun entry mem stored => release_apart planned mem
    rows := ?_
    parents := ?_
    heights := ?_
    edges := ?_
    heads := ?_
    unreleased := ?_
    absent := ?_
    held := ?_ }
  · intro rows mem
    rcases mem_append.1 mem with old | new
    · exact sound.rows rows old
    · obtain rfl := mem_singleton.1 new
      exact planned.rows _
  · intro stored mem parent isParent
    obtain ⟨heights, known, -⟩ := planned.heights stored (mem_release_commits.1 mem).1
    obtain ⟨height, -, known⟩ := exists_right_of_mem known isParent
    exact ⟨height, known.release planned⟩
  · intro entry mem
    rw [release_skeleton, mem_append] at mem
    rcases mem with old | new
    · obtain ⟨few, heights, known, height⟩ := sound.heights entry old
      exact ⟨few, heights, known.imp fun _ _ known => (known.grow step.added).release planned, height⟩
    · obtain ⟨stored, inside, -, rfl⟩ := (planned.skeleton entry).1 new
      obtain ⟨heights, known, height⟩ := planned.heights stored inside
      exact ⟨planned.few _ new, heights, known.imp fun _ _ known => known.release planned, height⟩
  · intro edge mem
    rw [release_frontier, mem_append] at mem
    rcases mem with old | new
    · exact release_earlier_edge (sound.edges edge old) allowed.fresh (keeps edge old)
    · exact release_edge planned new
  · intro head mem
    obtain ⟨stored, inside, kept, same⟩ := planned.heads head mem
    exact ⟨stored, mem_release_commits.2 ⟨inside, kept⟩, same⟩
  · intro stored mem key isFile
    obtain ⟨inside, kept⟩ := mem_release_commits.1 mem
    rw [release_releasedStates, mem_append]
    rintro (old | new)
    · exact unreleased stored inside key isFile old
    · exact planned.states key new stored inside kept isFile
  · intro key gone
    rw [release_releasedStates, mem_append] at gone
    rw [mem_present]
    rintro ⟨old | ⟨stored, new, isFile⟩, stays⟩
    · exact sound.absent key (gone.resolve_right stays) old
    · exact allowed.unreleased stored new key isFile (gone.resolve_right stays)
  · intro stored mem key isFile
    obtain ⟨inside, kept⟩ := mem_release_commits.1 mem
    rw [mem_present]
    refine ⟨?_, fun gone => planned.states key gone stored inside kept isFile⟩
    rcases mem_append.1 inside with old | new
    · exact .inl (sound.held stored old key isFile)
    · exact .inr ⟨stored, new, isFile⟩

theorem sound_empty (project : Uuid) : (Repository.empty project).Coherent env := by
  constructor <;>
    simp [Repository.empty, Repository.skeleton, Repository.frontier, Repository.releasedStates]

theorem frontier_stays_iff (sound : repo.Coherent env) (allowed : step.Allowed repo)
    (advanced : repo.advance env step = .ok next) :
    (∀ edge ∈ repo.frontier, ∃ stored ∈ next.commits, stored.address = edge.child) ↔
    KeepsFrontier repo step := by
  obtain ⟨result, found, same⟩ := bind_eq_ok.1 advanced
  cases same
  obtain ⟨view, build, planned⟩ := bind_eq_ok.1 found
  obtain ⟨decision, roots, digest, ⟨made⟩, -, -, -, rfl⟩ := plan_eq_ok.1 planned
  have shown : (repo.grow step.added).Shown step.heads view := shown_of_build allowed.fresh build
  have stays {edge : FrontierEdge} (mem : edge ∈ repo.frontier) :
      (∃ stored ∈ ((repo.grow step.added).release step.heads
        ((decision.describe view step.policy step.options env roots digest).withHash env)).commits,
        stored.address = edge.child) ↔ view.Kept step.policy step.options edge.child := by
    obtain ⟨⟨child, inside, address, -⟩, -⟩ := sound.edges edge mem
    have retained := shown.retained made allowed.history (a := edge.child)
    have isStored : edge.child ∈ (repo.grow step.added).commits.map Stored.address :=
      mem_map.2 ⟨child, mem_append_left _ inside, address⟩
    rw [and_iff_right isStored, made.kept_iff] at retained
    rw [← retained]
    constructor
    · rintro ⟨stored, kept, same⟩
      exact same ▸ (mem_release_commits.1 kept).2
    · intro kept
      exact ⟨child, mem_release_commits.2 ⟨mem_append_left _ inside, address ▸ kept⟩, address⟩
  constructor
  · intro keeps view' build' edge mem
    cases build.symm.trans build'
    exact (stays mem).1 (keeps edge mem)
  · intro keeps edge mem
    exact (stays mem).2 (keeps view build edge mem)

theorem sound_of_run (run : Run env KeepsFrontier repo) : repo.Coherent env := by
  induction run with
  | start project => exact sound_empty project
  | step step _ allowed advanced keeps sound =>
    exact sound.advance allowed advanced ((frontier_stays_iff sound allowed advanced).2 keeps)

/-- The check finds the commit from which each edge leads. -/
theorem children_of_check (distinct : (repo.commits.map Stored.address).Nodup)
    (checked : repo.check env = .ok ()) (mem : edge ∈ repo.frontier) :
    ∃ stored ∈ repo.commits, stored.address = edge.child := by
  obtain ⟨bodies, isBodies, checked⟩ := bind_eq_ok.1 checked
  obtain ⟨entries, -, checked⟩ := bind_eq_ok.1 checked
  obtain ⟨⟨⟩, -, checked⟩ := bind_eq_ok.1 checked
  obtain ⟨⟨⟩, -, checked⟩ := bind_eq_ok.1 checked
  obtain ⟨⟨⟩, -, checked⟩ := bind_eq_ok.1 checked
  obtain ⟨⟨⟩, edges, -⟩ := bind_eq_ok.1 checked
  cases isBodies.symm.trans (foldlM_addBody distinct)
  have passed := forM_eq_ok.1 edges edge mem
  unfold checkEdge at passed
  split at passed
  · rename_i fits
    obtain ⟨commit, found, -⟩ := (Option.any_eq_true _ _).1 fits.1
    obtain ⟨stored, inside, same, -⟩ := (mem_repository_bodies distinct).1 found
    exact ⟨stored, inside, same⟩
  · contradiction

/-- Whatever horizons a repository went through, its rows, commits and states fit together, as
long as no step released a commit from which an earlier horizon has an edge; and one that does
leaves a repository that fails the check. -/
theorem horizon_chain_stays_valid (env : Hashing) (repo : Repository) (run : Run env KeepsFrontier repo) :
    repo.check env = .ok () ∧ ∀ step next, step.Allowed repo → repo.advance env step = .ok next →
      (next.check env = .ok () ↔ KeepsFrontier repo step) := by
  have sound := sound_of_run run
  refine ⟨sound.check_ok, fun step next allowed advanced => ?_⟩
  rw [← frontier_stays_iff sound allowed advanced]
  constructor
  · intro checked edge mem
    obtain ⟨result, -, same⟩ := bind_eq_ok.1 advanced
    cases same
    refine children_of_check ((filter_sublist.map _).nodup allowed.fresh) checked ?_
    rw [release_frontier]
    exact mem_append_left _ mem
  · exact fun keeps => (sound.advance allowed advanced keeps).check_ok

end Steps

def smallStored (n : UInt8) (parents : List UInt8) (height : Nat) : Stored where
  address := smallAddress n
  commit :=
    { version := 1
      project := smallUuid 0
      parents := parents.map smallAddress
      files := .ofList [("a.json", FileEntry.mk (smallUuid 1) (smallAddress n))]
      authoredAtMs := n.toNat
      recovery := none
      sameFileResolutions := [] }
  bytes := 100
  height := height

/-- Commits are added and branches moved; then one commit from each head on stays. -/
def smallStep (added : List Stored) (heads : List (String × UInt8)) : Step where
  added := added
  heads := heads.map fun (branch, n) => ⟨branch, smallAddress n, 1⟩
  holds := []
  objects := ⟨[], []⟩
  declared := []
  policy := smallPolicy .history 1
  options := ⟨none, 10⟩

/-- The steps that a repository may take, one after the other. -/
def smallRun (first second : Step) (P : Repository → Repository → Prop)
    [∀ middle last, Decidable (P middle last)] : Bool :=
  ((Repository.empty (smallUuid 0)).advance sumHashing first).toOption.any fun middle =>
    (middle.advance sumHashing second).toOption.any fun last =>
      first.Allowed (.empty (smallUuid 0)) ∧ second.Allowed middle ∧ P middle last

theorem of_smallRun {first second : Step} {P : Repository → Repository → Prop}
    [∀ middle last, Decidable (P middle last)] (runs : smallRun first second P = true) :
    ∃ middle last, (Repository.empty (smallUuid 0)).advance sumHashing first = .ok middle ∧
      middle.advance sumHashing second = .ok last ∧
      first.Allowed (.empty (smallUuid 0)) ∧ second.Allowed middle ∧ P middle last := by
  obtain ⟨middle, found, runs⟩ := (Option.any_eq_true _ _).1 runs
  obtain ⟨last, found', facts⟩ := (Option.any_eq_true _ _).1 runs
  exact ⟨middle, last, toOption_eq_some.1 found, toOption_eq_some.1 found', of_decide_eq_true facts⟩

/-- The first commit is released, then the third, while a branch stays at the second. -/
theorem third_commit_released_before_second :
    let first := smallStep [smallStored 1 [] 0, smallStored 2 [1] 1] [("main", 2)]
    let second := smallStep [smallStored 3 [2] 2, smallStored 4 [3] 3] [("main", 4), ("old", 2)]
    ∃ middle last, (Repository.empty (smallUuid 0)).advance sumHashing first = .ok middle ∧
      middle.advance sumHashing second = .ok last ∧
      last.skeleton.map address = [smallAddress 1, smallAddress 3] ∧
      last.check sumHashing = .ok () := by
  intro first second
  have runs : smallRun first second (fun middle last =>
      (∀ edge ∈ middle.frontier, edge.child = smallAddress 2) ∧
        last.skeleton.map address = [smallAddress 1, smallAddress 3]) = true := by
    decide +kernel
  obtain ⟨middle, last, advanced, advanced', allowed, allowed', children, rows⟩ := of_smallRun runs
  have start : Run sumHashing KeepsFrontier (.empty (smallUuid 0)) := .start (smallUuid 0)
  have run := start.step first allowed advanced (by
    intro view build edge mem
    simp [Repository.frontier, Repository.empty] at mem)
  have keeps : KeepsFrontier middle second := by
    intro view build edge mem
    have shown : (middle.grow second.added).Shown second.heads view := shown_of_build allowed'.fresh build
    have head : ⟨"old", smallAddress 2, 1⟩ ∈ view.branches := by
      rw [shown.branches]
      decide +kernel
    rw [children edge mem]
    exact .inl (.head head)
  exact ⟨middle, last, advanced, advanced', rows,
    (horizon_chain_stays_valid _ last (run.step second allowed' advanced' keeps)).1⟩

/-- The second horizon releases the commit that the first has its edge from. -/
theorem later_horizon_strands_edge :
    ¬ ∀ env repo, Run env (fun _ _ => True) repo → repo.check env = .ok () := by
  intro claim
  let first := smallStep [smallStored 1 [] 0, smallStored 2 [1] 1] [("main", 2)]
  let second := smallStep [smallStored 3 [2] 2] [("main", 3)]
  have runs : smallRun first second (fun _ last => last.check sumHashing =
      .error (.violated .h4 ("frontier edge " ++ hex (smallAddress 2) ++ " -> " ++ hex (smallAddress 1) ++
        " matches no rows"))) = true := by
    decide +kernel
  obtain ⟨middle, last, advanced, advanced', allowed, allowed', stranded⟩ := of_smallRun runs
  have run : Run sumHashing (fun _ _ => True) last :=
    ((Run.start (smallUuid 0)).step first allowed advanced trivial).step second allowed' advanced' trivial
  exact absurd (stranded.symm.trans (claim _ last run)) nofun

end Dynodoc.Horizon
