import Dynodoc.Horizon.Content
import Dynodoc.Horizon.Plan

/-! What a plan decides, taken apart: the graph it was computed on, the commits that each
rule marks, and the parts that a successful plan is assembled from. -/
namespace Dynodoc.Horizon
open Std (ExtTreeMap ExtTreeSet)
open Checkpoint (Address)
open Log (Hashing)
open Loop OrderedMap DepthFirst Sorted List HistoryView

variable {graph : Graph} {view : HistoryView} {a : Address} {offers : List (Address × Reason)}
  {policy : Policy} {reason : Reason} {kept : Reasons}

section Bodies

variable {node : CommitNode}

theorem mem_bodies_iff : view.bodies[a]? = some node ↔
      ∃ commit ∈ view.commits, commit.address = a ∧ commit.toCommitNode = node := by
  rw [bodies, getElem?_ofList]
  · simp
  · simpa [Function.comp_def] using view.distinct

theorem mem_bodies_content : view.bodies[a]? = some node ↔
      ∃ commit ∈ view.content.commits, commit.node.address = a ∧ commit.node = node := by
  rw [mem_bodies_iff]
  simp [content, resolve]

theorem stored_iff : a ∈ view.bodies ↔ ∃ commit ∈ view.commits, commit.address = a := by
  rw [mem_iff_exists]
  simp [mem_bodies_iff]

theorem address_of_body (found : view.bodies[a]? = some node) : node.address = a := by
  obtain ⟨commit, -, rfl, rfl⟩ := mem_bodies_iff.1 found
  rfl

theorem mem_released_iff {entry : SkeletonEntry}
    (distinct : (view.skeleton.map SkeletonEntry.address).Nodup) :
    view.released[a]? = some entry ↔ entry ∈ view.skeleton ∧ entry.address = a := by
  rw [released, getElem?_ofList]
  · simp only [mem_map, Prod.mk.injEq]
    constructor
    · rintro ⟨_, mem, rfl, rfl⟩
      exact ⟨mem, rfl⟩
    · rintro ⟨mem, rfl⟩
      exact ⟨entry, mem, rfl, rfl⟩
  · simpa [Function.comp_def] using distinct

end Bodies

theorem mem_nodesOf {bodies : ExtTreeMap Address CommitNode}
    {released : ExtTreeMap Address SkeletonEntry} :
    a ∈ nodesOf bodies released ↔ a ∈ bodies ∨ a ∈ released := by
  rw [nodesOf, mem_append, ExtTreeMap.mem_keys, ExtTreeMap.mem_keys]

theorem mem_named (distinct : (view.skeleton.map SkeletonEntry.address).Nodup)
    (apart : ∀ entry ∈ view.skeleton, entry.address ∉ view.bodies) :
    a ∈ named view.bodies view.released ↔ (∃ b, a ∈ view.parents b) ∨
      ∃ (b : Address) (node : CommitNode), view.bodies[b]? = some node ∧ a ∈ node.recovery := by
  have parents : (∃ b, a ∈ view.parents b) ↔
      (∃ (b : Address) (node : CommitNode), view.bodies[b]? = some node ∧ a ∈ node.parents) ∨
        ∃ (b : Address) (entry : SkeletonEntry), view.released[b]? = some entry ∧
          a ∈ entry.parents := by
    constructor
    · rintro ⟨b, mem⟩
      rw [parents, parentsIn] at mem
      split at mem
      · rename_i node found
        exact .inl ⟨b, node, found, mem⟩
      · cases found : view.released[b]? with
        | none => simp [found] at mem
        | some entry => exact .inr ⟨b, entry, found, by simpa [found] using mem⟩
    · rintro (⟨b, node, found, mem⟩ | ⟨b, entry, found, mem⟩)
      · exact ⟨b, by rwa [parents, parentsIn, found]⟩
      · obtain ⟨listed, rfl⟩ := (mem_released_iff distinct).1 found
        have absent := OrderedMap.getElem?_eq_none_iff.2 (apart entry listed)
        exact ⟨entry.address, by rw [parents, parentsIn, absent, found]; exact mem⟩
  rw [parents]
  simp only [named, mem_append, mem_flatMap, Prod.exists,
    ExtTreeMap.mem_toList_iff_getElem?_eq_some]

structure Graph.Built (view : HistoryView) (graph : Graph) : Prop where
  bodies : graph.bodies = view.bodies
  released : graph.released = view.released
  distinct : (view.skeleton.map SkeletonEntry.address).Nodup
  apart : ∀ entry ∈ view.skeleton, entry.address ∉ view.bodies
  known : ∀ a ∈ named view.bodies view.released, a ∈ view.bodies ∨ a ∈ view.released
  heights : heightsOf view.bodies view.released = some graph.marks
  checked : ∀ commit ∈ view.commits, ∀ height, commit.storedHeight = some height →
    height = graph.height commit.address

theorem Graph.build_eq_ok : Graph.build view = .ok graph ↔ graph.Built view := by
  have clash : (¬ (view.skeleton.map SkeletonEntry.address).Nodup ∨
      ((view.skeleton.map SkeletonEntry.address).any (· ∈ view.bodies)) = true) ↔
      ¬ ((view.skeleton.map SkeletonEntry.address).Nodup ∧
        ∀ entry ∈ view.skeleton, entry.address ∉ view.bodies) := by
    grind
  have misheight (marks : Marks Address Nat) : (view.bodies.toList.any fun entry =>
      entry.2.storedHeight.any fun stored => stored ≠ (valueAt marks entry.1).getD 0) = true ↔
      ¬ ∀ commit ∈ view.commits, ∀ height, commit.storedHeight = some height →
        height = (valueAt marks commit.address).getD 0 := by
    simp only [any_eq_true, Prod.exists, ExtTreeMap.mem_toList_iff_getElem?_eq_some,
      mem_bodies_iff, Option.any_eq_true]
    grind
  rw [Graph.build]
  constructor
  · intro built
    obtain ⟨fine, built⟩ := guard_eq_ok.1 built
    split at built
    · contradiction
    split at built
    · contradiction
    rename_i marks heights
    obtain ⟨matching, built⟩ := guard_eq_ok.1 built
    cases built
    obtain ⟨distinct, apart⟩ := not_not.1 (mt clash.2 fine)
    refine ⟨rfl, rfl, distinct, apart, fun a mem => ?_, heights,
      not_not.1 (mt (misheight marks).2 matching)⟩
    grind
  · rintro ⟨bodies, released, distinct, apart, known, heights, checked⟩
    rw [if_neg (mt clash.1 (not_not.2 ⟨distinct, apart⟩))]
    have noneLost : ((named view.bodies view.released).find? fun a =>
        a ∉ view.bodies ∧ a ∉ view.released) = none := by
      rw [find?_eq_none]
      intro a mem
      grind
    rw [noneLost, heights]
    dsimp only
    rw [if_neg (mt (misheight graph.marks).1 (not_not.2 checked)), ← bodies, ← released]

theorem Graph.Built.parents (built : graph.Built view) : graph.parents = view.parents := by
  funext a
  rw [Graph.parents, built.bodies, built.released, HistoryView.parents]

theorem Graph.Built.solved (built : graph.Built view) :
    Solved view.parents (heightFrom view.bodies view.released) graph.marks ∧
      ∀ a, a ∈ view.bodies ∨ a ∈ view.released → (valueAt graph.marks a).isSome := by
  obtain ⟨sound, all⟩ := sound_of_searchAll built.heights
  exact ⟨sound.solved, fun a mem => all a (mem_nodesOf.2 mem)⟩

section Marks

variable {keep : Reasons}

theorem getElem?_mark (keep : Reasons) (offer : Address × Reason) (a : Address) :
    (mark keep offer)[a]? = keep[a]?.or (if offer.1 = a then some offer.2 else none) := by
  rw [mark, getElem?_insertIfNew]
  by_cases same : a = offer.1
  · rw [if_pos same, if_pos same.symm, same]
    cases keep[offer.1]? <;> rfl
  · rw [if_neg same, if_neg (Ne.symm same), Option.or_none]

theorem getElem?_markAll (keep : Reasons) (offers : List (Address × Reason)) (a : Address) :
    (markAll keep offers)[a]? =
      keep[a]?.or ((offers.find? fun offer => offer.1 = a).map Prod.snd) := by
  induction offers generalizing keep with
  | nil => simp [markAll]
  | cons offer offers ih =>
    have step : markAll keep (offer :: offers) = markAll (mark keep offer) offers := rfl
    rw [step, ih, getElem?_mark]
    by_cases same : offer.1 = a <;> simp [same]

theorem mem_markAll : a ∈ markAll keep offers ↔ a ∈ keep ∨ a ∈ offers.map Prod.fst := by
  rw [ExtTreeMap.mem_iff_isSome_getElem?, getElem?_markAll]
  simp

theorem of_getElem?_markAll (found : (markAll keep offers)[a]? = some reason) :
    keep[a]? = some reason ∨ (a, reason) ∈ offers := by
  rw [getElem?_markAll, Option.or_eq_some_iff] at found
  rcases found with found | ⟨-, found⟩
  · exact .inl found
  · obtain ⟨offer, first, rfl⟩ := Option.map_eq_some_iff.1 found
    have same : offer.1 = a := by simpa using find?_some first
    exact .inr (same ▸ mem_of_find?_eq_some first)

@[simp] theorem mem_pin {commits : List Address} {offer : Address × Reason} :
    offer ∈ pin graph reason commits ↔
      offer.1 ∈ commits ∧ offer.1 ∈ graph.bodies ∧ offer.2 = reason := by
  rw [pin, mem_map]
  constructor
  · rintro ⟨b, mem, rfl⟩
    simpa using mem
  · rintro ⟨mem, stored, rfl⟩
    exact ⟨offer.1, by simp [mem, stored], rfl⟩

end Marks

theorem firstParents_succ (graph : Graph) (count : Nat) (node : Address) :
    firstParents graph (count + 1) (some node) =
      node :: firstParents graph count ((graph.parents node).head?.filter (· ∈ graph.bodies)) := rfl

theorem foldlM_addHead {heads : List HeadRef} {before nodes : ExtTreeMap String Address} :
    heads.foldlM (addHead graph) before = .ok nodes ↔ (∀ head ∈ heads, head.commit ∈ graph.bodies) ∧
      nodes = heads.foldl (fun nodes head => nodes.insert head.branch head.commit) before := by
  induction heads generalizing before with
  | nil => simp [pure, Except.pure, eq_comm]
  | cons head heads ih =>
    rw [foldlM_cons, bind_eq_ok, forall_mem_cons, foldl_cons, and_assoc, ← ih, addHead]
    constructor
    · rintro ⟨next, added, rest⟩
      split at added
      · rename_i stored
        cases added
        exact ⟨stored, rest⟩
      · split at added <;> contradiction
    · rintro ⟨stored, rest⟩
      exact ⟨_, if_pos stored, rest⟩

theorem retained_history (history : policy.tier = .history) :
    (splitCommits graph policy kept).retained = graph.bodies.keys.filter (· ∈ kept) := by
  simp [splitCommits, history]

theorem released_history (history : policy.tier = .history) :
    (splitCommits graph policy kept).released = graph.bodies.keys.filter (· ∉ kept) := by
  simp [splitCommits, history]

theorem mem_frontierOf {retained released : List Address} {edge : FrontierEdge} :
    edge ∈ frontierOf graph retained released ↔ edge.child ∈ retained ∧
      edge.parent ∈ graph.parents edge.child ∧ edge.parent ∈ released ∧
      edge.parentHeight = graph.height edge.parent := by
  simp only [frontierOf, mem_sortBy, mem_flatMap, mem_map, mem_filter, decide_eq_true_eq]
  constructor
  · rintro ⟨child, kept, parent, ⟨isParent, gone⟩, rfl⟩
    exact ⟨kept, isParent, gone, rfl⟩
  · rintro ⟨kept, isParent, gone, height⟩
    exact ⟨edge.child, kept, edge.parent, ⟨isParent, gone⟩, by rw [← height]⟩

section Inversion

variable {options : PlanOptions} {decision : Decision}

/-- The values that the rules passed on to one another. -/
structure Decision.Made (view : HistoryView) (policy : Policy) (options : PlanOptions)
    (decision : Decision) where
  cutoff : Option Int
  heads : ExtTreeMap String Address
  forks : List Address
  evidence : List (Address × Reason)
  input : checkInput view options = .ok ()
  window : cutoffOf policy options = .ok cutoff
  built : decision.graph.Built view
  sorted : decision.heads = sortBy (compareOn HeadRef.branch) view.branches
  headed : decision.heads.foldlM (addHead decision.graph) ∅ = .ok heads
  forked : forkPoints decision.graph.parents policy heads = .ok forks
  primary : decision.primary =
    keepPrimary decision.graph policy cutoff heads (heldOf view) forks
  proven : Horizon.evidence decision.graph decision.primary = .ok evidence
  kept : decision.kept = keepEvidence decision.graph decision.primary evidence
  warned : decision.warnings = warningsOf decision.graph policy heads (heldOf view) evidence

theorem Decision.make_eq_ok :
    Decision.make view policy options = .ok decision ↔
      Nonempty (decision.Made view policy options) := by
  simp only [Decision.make, bind_eq_ok]
  constructor
  · rintro ⟨⟨⟩, input, cutoff, window, graph, built, heads, headed, forks, forked, evidence, proven,
      made⟩
    cases made
    exact ⟨cutoff, heads, forks, evidence, input, window, Graph.build_eq_ok.1 built, rfl, headed,
      forked, rfl, proven, rfl, rfl⟩
  · rintro ⟨cutoff, heads, forks, evidence, input, window, built, sorted, headed, forked, primary,
      proven, kept, warned⟩
    refine ⟨(), input, cutoff, window, decision.graph, Graph.build_eq_ok.2 built, heads,
      sorted ▸ headed, forks, forked, evidence, primary ▸ proven, ?_⟩
    rw [← primary, ← kept, ← warned, ← sorted]

theorem plan_eq_ok {env : Hashing} {result : HorizonPlan} :
    plan env view policy options = .ok result ↔ ∃ (decision : Decision) (roots : PlanRoots)
      (digest : Address), Nonempty (decision.Made view policy options) ∧
      checkCounts (decision.counts view policy) = .ok () ∧
      rootsOf env (decision.split policy) (decision.releasedStates view policy) = .ok roots ∧
      headsDigest env decision.heads = .ok digest ∧
      result = (decision.describe view policy options env roots digest).withHash env := by
  simp only [plan, bind_eq_ok, Decision.make_eq_ok, Except.ok.injEq]
  constructor
  · rintro ⟨decision, made, ⟨⟩, counts, roots, rooted, digest, digested, rfl⟩
    exact ⟨decision, roots, digest, made, counts, rooted, digested, rfl⟩
  · rintro ⟨decision, roots, digest, made, counts, rooted, digested, rfl⟩
    exact ⟨decision, made, (), counts, roots, rooted, digest, digested, rfl⟩

end Inversion

section Own

variable {options : PlanOptions} {decision : Decision}

/-- One step along first parents, as far as they are stored. -/
def HistoryView.back (view : HistoryView) (node : Option Address) : Option Address :=
  node.bind fun a => (view.parents a).head?.filter (· ∈ view.bodies)

/-- The commits that a policy keeps for their own sake. -/
inductive HistoryView.KeptForItself (view : HistoryView) (policy : Policy) (options : PlanOptions) :
    Address → Prop
  | head {head : HeadRef} (mem : head ∈ view.branches) : KeptForItself view policy options head.commit
  | hold {hold : Hold} (mem : hold ∈ view.holds) (stored : hold.commit ∈ view.bodies) :
      KeptForItself view policy options hold.commit
  | policyCommit {a : Address} (mem : a ∈ policy.protect.commits) (stored : a ∈ view.bodies) :
      KeptForItself view policy options a
  | mergeBase {bases : MergeBases} {against head : HeadRef} {found : List Address} {a : Address}
      (protect : policy.protect.mergeBases = some bases) (compared : against ∈ view.branches)
      (named : against.branch = bases.against) (mem : head ∈ view.branches)
      (other : head.branch ≠ bases.against) (matching : bases.matches head.branch = true)
      (isFound : mergeBases view.parents against.commit head.commit = .ok found) (isBase : a ∈ found)
      (stored : a ∈ view.bodies) : KeptForItself view policy options a
  | recentCount {count n : Nat} {head : HeadRef} {a : Address} (window : policy.count = some count)
      (mem : head ∈ view.branches) (within : n < count)
      (isBack : view.back^[n] (some head.commit) = some a) :
      KeptForItself view policy options a
  | recentTime {cutoff : Int} {commit : ViewCommit} (window : cutoffOf policy options = .ok (some cutoff))
      (mem : commit ∈ view.commits) (recent : commit.authoredAtMs ≥ cutoff) :
      KeptForItself view policy options commit.address

theorem mem_firstParents (built : graph.Built view) {count : Nat} {start : Option Address} :
    a ∈ firstParents graph count start ↔ ∃ n < count, view.back^[n] start = some a := by
  induction count generalizing start with
  | zero => simp [firstParents]
  | succ count ih =>
    cases start with
    | none =>
      have stays (n : Nat) : view.back^[n] none = none := Function.iterate_fixed rfl n
      simp [firstParents, stays]
    | some node =>
      have step : (graph.parents node).head?.filter (· ∈ graph.bodies) = view.back (some node) := by
        rw [built.parents, built.bodies]
        rfl
      rw [firstParents_succ, mem_cons, step, ih, Nat.exists_lt_succ_left]
      simp [eq_comm]

theorem mem_forkPoints {parents : Address → List Address} {heads : ExtTreeMap String Address}
    {forks : List Address} (forked : forkPoints parents policy heads = .ok forks) :
    a ∈ forks ↔ ∃ (bases : MergeBases) (against : Address) (head : String × Address) (found : List Address),
      policy.protect.mergeBases = some bases ∧ heads[bases.against]? = some against ∧ head ∈ heads.toList ∧
      head.1 ≠ bases.against ∧ bases.matches head.1 = true ∧ mergeBases parents against head.2 = .ok found ∧
      a ∈ found := by
  rw [forkPoints] at forked
  split at forked
  · rename_i unprotected
    cases forked
    simp [unprotected]
  rename_i bases protect
  split at forked
  · rename_i absent
    cases forked
    simp [protect, absent]
  rename_i against present
  obtain ⟨lists, mapped, same⟩ := bind_eq_ok.1 forked
  cases same
  rw [mapM_eq_ok] at mapped
  rw [mem_flatten]
  constructor
  · rintro ⟨found, listed, mem⟩
    obtain ⟨head, matching, isFound⟩ := exists_left_of_mem mapped listed
    simp only [mem_filter, decide_eq_true_eq] at matching
    exact ⟨bases, against, head, found, protect, present, matching.1, matching.2.1, matching.2.2,
      isFound, mem⟩
  · rintro ⟨_, _, head, found, protect', present', inside, other, matching, isFound, mem⟩
    cases protect.symm.trans protect'
    cases present.symm.trans present'
    obtain ⟨found', listed, isFound'⟩ := exists_right_of_mem mapped
      (mem_filter.2 ⟨inside, decide_eq_true ⟨other, matching⟩⟩)
    cases isFound.symm.trans isFound'
    exact ⟨found, listed, mem⟩

variable (made : decision.Made view policy options)

include made

theorem Decision.Made.mem_heads {branch : String} :
    (branch, a) ∈ made.heads.toList ↔ ∃ head ∈ view.branches, head.branch = branch ∧ head.commit = a := by
  have fold : made.heads = .ofList (decision.heads.map fun head => (head.branch, head.commit)) := by
    rw [(foldlM_addHead.1 made.headed).2, ExtTreeMap.ofList_eq_foldl, foldl_map]
  rw [ExtTreeMap.mem_toList_iff_getElem?_eq_some, fold, getElem?_ofList, mem_map]
  · simp [made.sorted, mem_sortBy]
  · rw [map_map, made.sorted]
    exact ((sortBy_perm _ _).map _).nodup_iff.2 view.named

theorem Decision.Made.mem_forks : a ∈ made.forks ↔
    ∃ (bases : MergeBases) (against head : HeadRef) (found : List Address),
      policy.protect.mergeBases = some bases ∧ against ∈ view.branches ∧
      against.branch = bases.against ∧ head ∈ view.branches ∧ head.branch ≠ bases.against ∧
      bases.matches head.branch = true ∧
      mergeBases view.parents against.commit head.commit = .ok found ∧ a ∈ found := by
  rw [mem_forkPoints made.forked, made.built.parents]
  constructor
  · rintro ⟨bases, against, head, found, protect, compared, mem, other, matching, isFound, isBase⟩
    obtain ⟨left, inLeft, named, rfl⟩ :=
      made.mem_heads.1 (ExtTreeMap.mem_toList_iff_getElem?_eq_some.2 compared)
    obtain ⟨right, inRight, branch, commit⟩ := made.mem_heads.1 mem
    rw [← branch] at other matching
    rw [← commit] at isFound
    exact ⟨bases, left, right, found, protect, inLeft, named, inRight, other, matching, isFound, isBase⟩
  · rintro ⟨bases, left, right, found, protect, inLeft, named, inRight, other, matching, isFound, isBase⟩
    refine ⟨bases, left.commit, (right.branch, right.commit), found, protect, ?_,
      made.mem_heads.2 ⟨right, inRight, rfl, rfl⟩, other, matching, isFound, isBase⟩
    exact ExtTreeMap.mem_toList_iff_getElem?_eq_some.1 (made.mem_heads.2 ⟨left, inLeft, named, rfl⟩)

theorem Decision.Made.mem_recentCount : a ∈ recentCount decision.graph policy made.heads ↔
    ∃ count, policy.count = some count ∧
      ∃ head ∈ view.branches, ∃ n < count, view.back^[n] (some head.commit) = some a := by
  unfold recentCount
  split
  · simp [*]
  · rename_i count window
    simp only [mem_flatMap, mem_firstParents made.built, window, Option.some.injEq, exists_eq_left']
    constructor
    · rintro ⟨⟨branch, node⟩, mem, isBack⟩
      obtain ⟨head, inside, -, rfl⟩ := made.mem_heads.1 mem
      exact ⟨head, inside, isBack⟩
    · rintro ⟨head, inside, isBack⟩
      exact ⟨(head.branch, head.commit), made.mem_heads.2 ⟨head, inside, rfl, rfl⟩, isBack⟩

theorem Decision.Made.mem_recentTime : a ∈ recentTime decision.graph made.cutoff ↔
    ∃ cutoff, made.cutoff = some cutoff ∧
      ∃ commit ∈ view.commits, commit.authoredAtMs ≥ cutoff ∧ commit.address = a := by
  unfold recentTime
  rw [made.built.bodies]
  split
  · simp [*]
  · rename_i cutoff isCutoff
    simp only [mem_map, mem_filter, Prod.exists, ExtTreeMap.mem_toList_iff_getElem?_eq_some,
      mem_bodies_iff, decide_eq_true_eq, exists_and_right, exists_eq_right, isCutoff,
      Option.some.injEq, exists_eq_left']
    constructor
    · rintro ⟨_, ⟨commit, mem, rfl, rfl⟩, recent⟩
      exact ⟨commit, mem, recent, rfl⟩
    · rintro ⟨commit, mem, recent, rfl⟩
      exact ⟨commit.toCommitNode, ⟨commit, mem, rfl, rfl⟩, recent⟩

/-- What a plan keeps for its own sake, in terms of what the planner is given. -/
theorem Decision.Made.mem_primary : a ∈ decision.primary ↔ view.KeptForItself policy options a := by
  have rules : a ∈ decision.primary ↔ (∃ branch, (branch, a) ∈ made.heads.toList) ∨
      (∃ hold ∈ view.holds, hold.commit = a) ∧ a ∈ view.bodies ∨
      a ∈ policy.protect.commits ∧ a ∈ view.bodies ∨ a ∈ made.forks ∧ a ∈ view.bodies ∨
      a ∈ recentCount decision.graph policy made.heads ∨ a ∈ recentTime decision.graph made.cutoff := by
    rw [made.primary, keepPrimary, mem_markAll, ← made.built.bodies]
    simp [primaryOffers, pin, Function.comp_def, heldOf, mem_sortBy]
  rw [rules, made.mem_forks, made.mem_recentCount, made.mem_recentTime]
  constructor
  · rintro (⟨branch, head⟩ | ⟨⟨hold, mem, rfl⟩, stored⟩ | ⟨mem, stored⟩ |
      ⟨⟨bases, against, head, found, protect, compared, named, mem, other, matching, isFound, isBase⟩,
      stored⟩ | ⟨count, window, head, mem, n, within, isBack⟩ |
      ⟨cutoff, isCutoff, commit, mem, recent, rfl⟩)
    · obtain ⟨head, mem, -, rfl⟩ := made.mem_heads.1 head
      exact .head mem
    · exact .hold mem stored
    · exact .policyCommit mem stored
    · exact .mergeBase protect compared named mem other matching isFound isBase stored
    · exact .recentCount window mem within isBack
    · exact .recentTime (made.window.trans (congrArg _ isCutoff)) mem recent
  · rintro (⟨mem⟩ | ⟨mem, stored⟩ | ⟨mem, stored⟩ |
      ⟨protect, compared, named, mem, other, matching, isFound, isBase, stored⟩ |
      ⟨window, mem, within, isBack⟩ | ⟨window, mem, recent⟩)
    · exact .inl ⟨_, made.mem_heads.2 ⟨_, mem, rfl, rfl⟩⟩
    · exact .inr (.inl ⟨⟨_, mem, rfl⟩, stored⟩)
    · exact .inr (.inr (.inl ⟨mem, stored⟩))
    · exact .inr (.inr (.inr (.inl ⟨⟨_, _, _, _, protect, compared, named, mem, other, matching,
        isFound, isBase⟩, stored⟩)))
    · exact .inr (.inr (.inr (.inr (.inl ⟨_, window, _, mem, _, within, isBack⟩))))
    · have isCutoff := Except.ok.inj (made.window.symm.trans window)
      exact .inr (.inr (.inr (.inr (.inr ⟨_, isCutoff, _, mem, recent, rfl⟩))))

end Own

end Dynodoc.Horizon
