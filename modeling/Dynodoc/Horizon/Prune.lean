import Dynodoc.Horizon.Order

/-! Planning again on what a plan leaves: the retained commits, and a skeleton row for each
released one. -/
namespace Dynodoc.Horizon
open Std (ExtTreeMap ExtTreeSet)
open Checkpoint (Address)
open Log (Hashing Uuid)
open Loop OrderedMap Sorted DepthFirst List HistoryView Content Call Decision

variable {policy : Policy} {a : Address} {heads : ExtTreeMap String Address} {graph' : Graph}
  {options : PlanOptions} {result : HorizonPlan} {cutoff : Option Int} {decision : Decision}
  {kept : Reasons}

section Rules

/-- A graph in which only the kept commits are stored, and that is otherwise the same. -/
structure Graph.Pruned (kept : Reasons) (graph graph' : Graph) : Prop where
  bodies : graph'.bodies = graph.bodies.filter fun a _ => a ∈ kept
  parents : graph'.parents = graph.parents

variable {graph : Graph} (pruned : graph.Pruned kept graph')
include pruned

theorem Graph.Pruned.mem_iff : a ∈ graph'.bodies ↔ a ∈ graph.bodies ∧ a ∈ kept := by
  rw [pruned.bodies, ExtTreeMap.mem_filter]
  simp

theorem Graph.Pruned.filter {α : Type} (address : α → Address) {l : List α}
    (stay : ∀ x ∈ l, address x ∈ graph.bodies → address x ∈ kept) :
    (l.filter fun x => address x ∈ graph'.bodies) = l.filter fun x => address x ∈ graph.bodies := by
  refine filter_congr fun x mem => ?_
  rw [decide_eq_decide, pruned.mem_iff]
  exact and_iff_left_of_imp (stay x mem)

theorem pin_pruned {reason : Reason} {commits : List Address}
    (stay : ∀ offer ∈ pin graph reason commits, offer.1 ∈ kept) :
    pin graph' reason commits = pin graph reason commits := by
  have same := pruned.filter id fun a mem stored =>
    stay (a, reason) (mem_pin.2 ⟨mem, stored, rfl⟩)
  exact congrArg (List.map (·, reason)) same

theorem firstParents_pruned {count : Nat} {start : Option Address}
    (stay : ∀ a ∈ firstParents graph count start, a ∈ kept) :
    firstParents graph' count start = firstParents graph count start := by
  induction count generalizing start with
  | zero => rfl
  | succ count ih =>
    cases start with
    | none => rfl
    | some node =>
      rw [firstParents_succ, pruned.parents]
      congr 1
      -- The next commit is listed too, unless the count ends here.
      cases count with
      | zero => rfl
      | succ count =>
        have next : (graph.parents node).head?.filter (· ∈ graph'.bodies) =
            (graph.parents node).head?.filter (· ∈ graph.bodies) := by
          cases first : (graph.parents node).head? with
          | none => rfl
          | some parent =>
            by_cases stored : parent ∈ graph.bodies
            · have listed : parent ∈ kept :=
                stay parent (by simp [first, Option.filter_some, stored, firstParents_succ])
              simp [Option.filter_some, pruned.mem_iff, listed]
            · simp [Option.filter_some, pruned.mem_iff, stored]
        rw [next]
        exact ih fun a mem => stay a (mem_cons_of_mem _ mem)

theorem recentCount_pruned (stay : ∀ a ∈ recentCount graph policy heads, a ∈ kept) :
    recentCount graph' policy heads = recentCount graph policy heads := by
  rw [recentCount, recentCount] at *
  cases counted : policy.count with
  | none => rfl
  | some count =>
    rw [counted] at stay
    refine flatMap_congr fun head mem => ?_
    exact firstParents_pruned pruned fun a listed =>
      stay a (mem_flatMap.2 ⟨head, mem, listed⟩)

theorem recentTime_pruned (stay : ∀ a ∈ recentTime graph cutoff, a ∈ kept) :
    recentTime graph' cutoff = recentTime graph cutoff := by
  cases cutoff with
  | none => rfl
  | some cutoff =>
    rw [recentTime, recentTime] at *
    rw [pruned.bodies, ExtTreeMap.toList_filter, filter_filter]
    congr 1
    refine filter_congr fun entry mem => ?_
    by_cases recent : entry.2.authoredAtMs ≥ cutoff
    · have : entry.1 ∈ kept := stay entry.1 (mem_map_of_mem (mem_filter.2 ⟨mem, by simpa⟩))
      simp [this]
    · simp [recent]

/-- The rules offer the same marks when all commits that they mark are kept. -/
theorem primaryOffers_pruned {held : List Hold} {forks : List Address}
    (stay : ∀ offer ∈ primaryOffers graph policy cutoff heads held forks, offer.1 ∈ kept) :
    primaryOffers graph' policy cutoff heads held forks =
      primaryOffers graph policy cutoff heads held forks := by
  simp only [primaryOffers, forall_mem_append] at stay
  obtain ⟨⟨⟨⟨⟨-, holds⟩, commits⟩, bases⟩, counted⟩, timed⟩ := stay
  rw [primaryOffers, primaryOffers, pin_pruned pruned holds, pin_pruned pruned commits,
    pin_pruned pruned bases,
    recentCount_pruned pruned fun a mem => counted (a, _) (mem_map_of_mem mem),
    recentTime_pruned pruned fun a mem => timed (a, _) (mem_map_of_mem mem)]

theorem keptBodies_pruned {keep : Reasons} (stay : ∀ a ∈ keep, a ∈ kept) :
    keptBodies graph' keep = keptBodies graph keep := by
  rw [keptBodies, pruned.bodies, ExtTreeMap.toList_filter, filter_filter]
  congr 1
  refine filter_congr fun entry _ => ?_
  by_cases mem : entry.1 ∈ keep
  · simp [stay entry.1 mem]
  · simp [mem]

end Rules

/-- A view of what is left when all but the kept commits have been released. -/
structure PrunedView (kept : Reasons) (graph : Graph) (view view' : HistoryView) : Prop where
  branches : view'.branches = view.branches
  holds : view'.holds = view.holds
  commits : ∀ commit, commit ∈ view'.content.commits ↔
    commit ∈ view.content.commits ∧ commit.node.address ∈ kept
  skeleton : view'.skeleton =
    view.skeleton ++ (view.bodies.keys.filter fun a => a ∉ kept).map graph.row

namespace PrunedView

variable {graph : Graph} {view view' : HistoryView}
  (pruned : PrunedView kept graph view view') (built : graph.Built view)
include pruned

theorem bodies : view'.bodies = view.bodies.filter fun a _ => a ∈ kept := by
  refine ExtTreeMap.ext_getElem? fun a => Option.ext fun node => ?_
  rw [ExtTreeMap.getElem?_filter', Option.filter_eq_some_iff, mem_bodies_content, mem_bodies_content]
  simp only [pruned.commits]
  grind

theorem mem_bodies : a ∈ view'.bodies ↔ a ∈ view.bodies ∧ a ∈ kept := by
  rw [pruned.bodies, ExtTreeMap.mem_filter]
  simp

include built

theorem distinct : (view'.skeleton.map SkeletonEntry.address).Nodup := by
  rw [pruned.skeleton, map_append, map_map, nodup_append']
  refine ⟨built.distinct, ?_, ?_⟩
  · have keys : view.bodies.keys.Nodup :=
      ExtTreeMap.distinct_keys.imp fun apart same => apart (Std.compare_eq_iff_eq.2 same)
    simpa [Function.comp_def, Graph.row] using keys.filter _
  · intro a old new
    obtain ⟨entry, mem, rfl⟩ := mem_map.1 old
    obtain ⟨b, listed, same⟩ := mem_map.1 new
    have stored : b ∈ view.bodies := ExtTreeMap.mem_keys.1 (mem_filter.1 listed).1
    exact built.apart entry mem (same ▸ stored)

theorem released (a : Address) : view'.released[a]? =
    if a ∈ view.bodies ∧ a ∉ kept then some (graph.row a) else view.released[a]? := by
  refine Option.ext fun entry => ?_
  rw [mem_released_iff (pruned.distinct built), pruned.skeleton, mem_append, mem_map]
  by_cases gone : a ∈ view.bodies ∧ a ∉ kept
  · rw [if_pos gone]
    constructor
    · rintro ⟨old | ⟨b, mem, rfl⟩, rfl⟩
      · exact absurd gone.1 (built.apart entry old)
      · rfl
    · rintro same
      cases same
      exact ⟨.inr ⟨a, by simp [gone], rfl⟩, rfl⟩
  · rw [if_neg gone, mem_released_iff built.distinct]
    refine and_congr_left fun named => or_iff_left ?_
    rintro ⟨b, mem, rfl⟩
    have := mem_filter.1 mem
    exact gone (named ▸ by simpa [Graph.row] using this)

theorem parents : view'.parents = view.parents := by
  funext a
  rw [HistoryView.parents, HistoryView.parents, parentsIn, parentsIn, pruned.released built,
    pruned.bodies, ExtTreeMap.getElem?_filter']
  cases found : view.bodies[a]? with
  | none =>
    have absent : a ∉ view.bodies := OrderedMap.getElem?_eq_none_iff.1 found
    simp [absent]
  | some node =>
    have stored : a ∈ view.bodies := of_getElem?_eq_some found
    by_cases stays : a ∈ kept
    · simp [Option.filter_some, stays]
    · have same : graph.parents a = node.parents := by
        rw [built.parents, HistoryView.parents, parentsIn, found]
      simp [stays, stored, Graph.row, same]

theorem known_iff :
    a ∈ view'.bodies ∨ a ∈ view'.released ↔ a ∈ view.bodies ∨ a ∈ view.released := by
  have released : a ∈ view'.released ↔ (view'.released[a]?).isSome :=
    ExtTreeMap.mem_iff_isSome_getElem?
  rw [pruned.mem_bodies, released, pruned.released built]
  by_cases stored : a ∈ view.bodies <;> by_cases stays : a ∈ kept <;> simp [stored, stays]

theorem apart : ∀ entry ∈ view'.skeleton, entry.address ∉ view'.bodies := by
  intro entry mem
  rw [pruned.skeleton, mem_append, mem_map] at mem
  rw [pruned.mem_bodies]
  rcases mem with old | ⟨a, gone, rfl⟩
  · exact fun stored => built.apart entry old stored.1
  · have := (mem_filter.1 gone).2
    simp_all [Graph.row]

theorem known : ∀ a ∈ named view'.bodies view'.released, a ∈ view'.bodies ∨ a ∈ view'.released := by
  intro a mem
  rw [pruned.known_iff built]
  refine built.known a ((mem_named built.distinct built.apart).2 ?_)
  rw [mem_named (pruned.distinct built) (pruned.apart built), pruned.parents built] at mem
  refine mem.imp_right ?_
  rintro ⟨b, node, found, source⟩
  rw [pruned.bodies, ExtTreeMap.getElem?_filter', Option.filter_eq_some_iff] at found
  exact ⟨b, node, found.1, source⟩

/-- The height on record of a released commit is the one that was computed. -/
theorem heightFrom_pruned (a : Address) (height : Nat) (found : valueAt graph.marks a = some height) :
    heightFrom view'.bodies view'.released a ((view.parents a).filterMap (valueAt graph.marks)) =
      height := by
  have computed := (built.solved.1 a height found).2.1
  rw [heightFrom] at computed ⊢
  rw [pruned.released built, pruned.bodies, ExtTreeMap.getElem?_filter']
  cases stored : view.bodies[a]? with
  | none =>
    have absent : a ∉ view.bodies := OrderedMap.getElem?_eq_none_iff.1 stored
    simp [absent, computed]
  | some node =>
    have mem : a ∈ view.bodies := of_getElem?_eq_some stored
    rw [stored] at computed
    by_cases stays : a ∈ kept
    · simp [Option.filter_some, stays, computed]
    · simp [Option.filter_some, stays, mem, Graph.row, Graph.height, found]

theorem built_pruned : ∃ graph', graph'.Built view' ∧ graph.Pruned kept graph' := by
  have parents := pruned.parents built
  obtain ⟨solved, all⟩ := built.solved
  obtain ⟨marks, found⟩ : ∃ marks, heightsOf view'.bodies view'.released = some marks := by
    refine searchAll_returns (fun node mem child edge => ?_) fun node mem => ?_
    · refine mem_nodesOf.2 (pruned.known built child ?_)
      exact (mem_named (pruned.distinct built) (pruned.apart built)).2 (.inl ⟨node, edge⟩)
    · obtain ⟨height, value⟩ := Option.isSome_iff_exists.1
        (all node ((pruned.known_iff built).1 (mem_nodesOf.1 mem)))
      have acc := (solved node height value).2.2
      rw [← parents] at acc
      exact acc
  obtain ⟨sound, all'⟩ := sound_of_searchAll found
  have solved' : Solved view.parents (heightFrom view'.bodies view'.released) marks :=
    parents ▸ sound.solved
  have heights (a : Address) (stored : a ∈ view'.bodies) : valueAt marks a = valueAt graph.marks a :=
    valueAt_eq_of_solved solved solved' (pruned.heightFrom_pruned built)
      (all a (.inl (pruned.mem_bodies.1 stored).1)) (all' a (mem_nodesOf.2 (.inl stored)))
  refine ⟨⟨view'.bodies, view'.released, marks⟩, ⟨rfl, rfl, pruned.distinct built, pruned.apart built,
    pruned.known built, found, ?_⟩, ⟨?_, ?_⟩⟩
  · intro commit mem height stored
    have here : commit.address ∈ view'.bodies := stored_iff.2 ⟨commit, mem, rfl⟩
    obtain ⟨old, -⟩ := (pruned.commits _).1 (mem_map_of_mem mem)
    obtain ⟨known, inView, resolved⟩ := mem_map.1 old
    have node : known.toCommitNode = commit.toCommitNode := congrArg Resolved.node resolved
    have checked := built.checked known inView height
    rw [node] at checked
    rw [checked stored, Graph.height, Graph.height, heights commit.address here]
  · rw [pruned.bodies, built.bodies]
  · rw [built.parents, ← parents]
    rfl

end PrunedView

section Decisions

variable {view view' : HistoryView}

theorem Decision.Made.mem_kept (made : decision.Made view policy options) : a ∈ decision.kept ↔
      a ∈ (primaryOffers decision.graph policy made.cutoff made.heads (heldOf view) made.forks).map
        Prod.fst ∨ a ∈ made.evidence.map Prod.fst ∧ a ∈ decision.graph.bodies := by
  rw [made.kept, keepEvidence, mem_markAll, made.primary, keepPrimary, mem_markAll]
  simp

theorem Decision.Made.head_kept (made : decision.Made view policy options) {head : HeadRef}
    (mem : head ∈ decision.heads) : head.commit ∈ decision.kept := by
  rw [made.sorted, mem_sortBy] at mem
  exact made.kept_iff.2 (.inl (.head mem))

def Decision.pruned (graph' : Graph) (warnings : ExtTreeSet String) (decision : Decision) : Decision :=
  { decision with graph := graph', warnings := warnings }

theorem made_pruned (made : decision.Made view policy options)
    (pruned : decision.graph.Pruned decision.kept graph') (built : graph'.Built view')
    (input : checkInput view' options = .ok ()) (branches : view'.branches = view.branches)
    (holds : view'.holds = view.holds) :
    ∃ warnings, Nonempty ((decision.pruned graph' warnings).Made view' policy options) := by
  have held : heldOf view' = heldOf view := by rw [heldOf, heldOf, holds]
  have stay : ∀ offer ∈ primaryOffers decision.graph policy made.cutoff made.heads (heldOf view)
      made.forks, offer.1 ∈ decision.kept :=
    fun offer mem => made.mem_kept.2 (.inl (mem_map_of_mem mem))
  have primary : decision.primary =
      keepPrimary graph' policy made.cutoff made.heads (heldOf view') made.forks := by
    rw [made.primary, keepPrimary, keepPrimary, held, primaryOffers_pruned pruned stay]
  have sub : ∀ a ∈ decision.primary, a ∈ decision.kept := by
    intro a mem
    rw [made.kept, keepEvidence, mem_markAll]
    exact .inl mem
  refine ⟨warningsOf graph' policy made.heads (heldOf view') made.evidence,
    ⟨made.cutoff, made.heads, made.forks, made.evidence, input, made.window, built, ?_, ?_,
    ?_, primary, ?_, ?_, rfl⟩⟩
  · rw [branches]
    exact made.sorted
  · obtain ⟨stored, nodes⟩ := foldlM_addHead.1 made.headed
    exact foldlM_addHead.2
      ⟨fun head mem => pruned.mem_iff.2 ⟨stored head mem, made.head_kept mem⟩, nodes⟩
  · show forkPoints graph'.parents policy made.heads = _
    rw [pruned.parents, made.forked]
  · show evidence graph' decision.primary = _
    rw [← made.proven, evidence, evidence, keptBodies_pruned pruned sub, pruned.parents]
  · show decision.kept = keepEvidence graph' decision.primary made.evidence
    rw [keepEvidence, pruned.filter Prod.fst fun offer mem stored =>
      made.mem_kept.2 (.inr ⟨mem_map_of_mem mem, stored⟩)]
    exact made.kept

end Decisions

section Contents

/-- What is left of a content when some commits are never added. -/
structure Content.PrunedTo (stays : Address → Bool) (content content' : Content) : Prop where
  branches : content'.branches = content.branches
  skeleton : content'.skeleton = content.skeleton
  holds : content'.holds = content.holds
  commits : content'.commits = content.commits.filter fun commit => stays commit.node.address
  objects : ∀ key object, content'.objects key = some object → content.objects key = some object
  named : ∀ key object, content'.objects key = some object → content'.Knows key

def Call.staysWith (stays : Address → Bool) (call : Call) : Bool := call.address?.all stays

variable {stays : Address → Bool} {content content' : Content}

theorem filter_addResolved (commits : List Resolved) (commit : Resolved) :
    (addResolved commits commit).filter (fun known => stays known.node.address) =
      if stays commit.node.address then
        addResolved (commits.filter fun known => stays known.node.address) commit
      else commits.filter fun known => stays known.node.address := by
  rw [addResolved, addResolved]
  by_cases stay : stays commit.node.address = true
  · rw [if_pos stay]
    have same : commit.node.address ∈ (commits.filter fun known => stays known.node.address).map
        (fun known => known.node.address) ↔
          commit.node.address ∈ commits.map fun known => known.node.address := by
      simp only [mem_map, mem_filter]
      constructor
      · rintro ⟨known, ⟨mem, -⟩, named⟩
        exact ⟨known, mem, named⟩
      · rintro ⟨known, mem, named⟩
        exact ⟨known, ⟨mem, named ▸ stay⟩, named⟩
    by_cases old : commit.node.address ∈ commits.map fun known => known.node.address
    · rw [if_pos old, if_pos (same.2 old)]
    · rw [if_neg old, if_neg (mt same.1 old), filter_append]
      simp [stay]
  · rw [if_neg stay]
    split
    · rfl
    simp [stay]

theorem Content.Knows.call {key : StateKey} (known : content.Knows key) (call : Call) :
    (content.call call).Knows key := by
  obtain ⟨commit, mem, named⟩ := known
  refine ⟨commit, ?_, named⟩
  rw [(lists_call _ _).2.2.2]
  cases call.commit? with
  | none => exact mem
  | some new =>
    simp only [Option.toList_some, foldl_cons, foldl_nil, addResolved]
    split
    · exact mem
    · exact mem_append_left _ mem

/-- A call that all commits may see is made on both. -/
theorem Content.PrunedTo.keep (pruned : content.PrunedTo stays content') {call : Call}
    (stay : call.staysWith stays = true) : (content.call call).PrunedTo stays (content'.call call) := by
  cases call with
  | commit address commit bytes storedHeight =>
    have here : stays address = true := by simpa [staysWith, address?] using stay
    refine ⟨pruned.branches, pruned.skeleton, pruned.holds, ?_, pruned.objects,
      fun key object found => (pruned.named key object found).call _⟩
    simp only [call]
    rw [filter_addResolved, if_pos (by exact here), pruned.commits]
  | branch head =>
    refine { pruned with branches := ?_ }
    simp [call, pruned.branches]
  | skeleton entry =>
    refine { pruned with skeleton := ?_ }
    simp [call, pruned.skeleton]
  | hold pinned =>
    refine { pruned with holds := ?_ }
    simp [call, pruned.holds]
  | stateObject state object =>
    have more {key : StateKey} (known : content'.Knows key) : content.Knows key := by
      obtain ⟨commit, mem, named⟩ := known
      rw [pruned.commits] at mem
      exact ⟨commit, (mem_filter.1 mem).1, named⟩
    simp only [call]
    by_cases known' : content'.Knows state
    · rw [if_pos known', if_pos (more known')]
      refine { pruned with objects := fun key object => ?_, named := fun key object found => ?_ }
      · dsimp only
        split
        · exact id
        · exact pruned.objects key object
      · dsimp only at found
        split at found
        · rename_i same
          exact same ▸ known'
        · exact pruned.named key object found
    · rw [if_neg known']
      by_cases known : content.Knows state
      · rw [if_pos known]
        refine { pruned with objects := fun key object found => ?_ }
        have other : key ≠ state := fun same => known' (same ▸ pruned.named key object found)
        simp only [if_neg other]
        exact pruned.objects key object found
      · rw [if_neg known]
        exact pruned

theorem Content.PrunedTo.drop (pruned : content.PrunedTo stays content') {call : Call}
    (gone : ¬ call.staysWith stays = true) : (content.call call).PrunedTo stays content' := by
  cases call with
  | commit address commit bytes storedHeight =>
    have here : ¬ stays address = true := by simpa [staysWith, address?] using gone
    refine { pruned with commits := ?_ }
    simp only [call]
    rw [filter_addResolved, if_neg (by exact here), pruned.commits]
  | _ => simp [staysWith, address?] at gone

theorem prunedTo_run (stays : Address → Bool) (calls : List Call) :
    (run calls).PrunedTo stays (run (calls.filter (Call.staysWith stays))) := by
  induction calls using List.reverseRecOn with
  | nil => exact ⟨rfl, rfl, rfl, rfl, by simp [run, empty], by simp [run, empty]⟩
  | append_singleton calls call ih =>
    rw [run_concat, filter_append]
    by_cases stay : call.staysWith stays = true
    · rw [filter_cons_of_pos stay, filter_nil, run_concat]
      exact ih.keep stay
    · rw [filter_cons_of_neg stay, filter_nil, append_nil]
      exact ih.drop stay

theorem run_skeletons (calls : List Call) (rows : List SkeletonEntry) :
    run (calls ++ rows.map Call.skeleton) =
      { run calls with skeleton := (run calls).skeleton ++ rows } := by
  induction rows using List.reverseRecOn with
  | nil => simp
  | append_singleton rows row ih =>
    rw [map_append, ← append_assoc, map_singleton, run_concat, ih, Content.call]
    simp

end Contents

section Again

variable {view view' : HistoryView} {warnings : ExtTreeSet String} {env : Hashing}
variable {project : Uuid} {objects : ObjectGraph} {calls : List Call}

section Again

variable (history : policy.tier = .history) (pruned : decision.graph.Pruned decision.kept graph')
include history pruned

theorem split_pruned (warnings : ExtTreeSet String) :
    (decision.pruned graph' warnings).split policy = ⟨(decision.split policy).retained, [], [], []⟩ := by
  have retained : ((decision.pruned graph' warnings).split policy).retained =
      (decision.split policy).retained := by
    rw [split, split, retained_history history, retained_history history]
    show graph'.bodies.keys.filter (· ∈ decision.kept) = _
    rw [pruned.bodies, ExtTreeMap.keys_filter_key (f := fun a => decide (a ∈ decision.kept)),
      filter_filter]
    simp
  have released : ((decision.pruned graph' warnings).split policy).released = [] := by
    rw [split, released_history history, filter_eq_nil_iff]
    intro a mem
    have stays : a ∈ (decision.pruned graph' warnings).kept :=
      (pruned.mem_iff.1 (ExtTreeMap.mem_keys.1 mem)).2
    simpa using stays
  refine Split.ext retained released ?_ ?_
  · show (if _ then [] else List.map _ ((decision.pruned graph' warnings).split policy).released) = _
    rw [released, map_nil, ite_self]
  · show frontierOf _ _ ((decision.pruned graph' warnings).split policy).released = _
    rw [released, eq_nil_iff_forall_not_mem]
    intro edge mem
    simpa using (mem_frontierOf.1 mem).2.2.1

theorem releasedStates_pruned (made : (decision.pruned graph' warnings).Made view' policy options) :
    (decision.pruned graph' warnings).releasedStates view' policy = [] := by
  rw [eq_nil_iff_forall_not_mem]
  intro key released
  obtain ⟨⟨commit, mem, named⟩, gone⟩ := mem_releasedStates.1 released
  refine gone ⟨commit, mem, .inl ⟨?_, named⟩⟩
  have stored : commit.node.address ∈ graph'.bodies := by
    have found := mem_bodies_content.2 ⟨commit, mem, rfl, rfl⟩
    rw [← made.built.bodies] at found
    exact ExtTreeMap.mem_iff_isSome_getElem?.2 (by
      rw [show graph'.bodies = (decision.pruned graph' warnings).graph.bodies from rfl, found]; rfl)
  have kept := pruned.mem_iff.1 stored
  rw [Decision.keepsFiles, keepsFiles, if_pos history, split_pruned history pruned warnings]
  simp [Decision.split, splitCommits, history, kept]

theorem counts_pruned (made : (decision.pruned graph' warnings).Made view' policy options) :
    (decision.pruned graph' warnings).counts view' policy = ⟨0, 0, 0, 0, 0⟩ := by
  have none : ((decision.pruned graph' warnings).states view' policy).released = [] := by
    rw [← length_eq_zero_iff, ← length_releasedStates, releasedStates_pruned history pruned made]
    rfl
  have walked (known : List Nat) : walkFrom view'.objects.children known [] = [] := by
    rw [walkFrom, reverse_nil]
    cases [].length + (view'.objects.children.map List.length).sum <;> rfl
  rw [counts, countsOf, split_pruned history pruned warnings, releasedObjects, none, filterMap_nil,
    walked]
  rfl

end Again

theorem plan_pruned (history : policy.tier = .history)
    (made : decision.Made view policy options)
    (pruned : PrunedView decision.kept decision.graph view view')
    (input : checkInput view' options = .ok ()) {roots : PlanRoots} {digest : Address}
    (rooted : rootsOf env (decision.split policy) (decision.releasedStates view policy) = .ok roots)
    (digested : headsDigest env decision.heads = .ok digest) :
    ∃ again, plan env view' policy options = .ok again ∧
      again.sets.retained = (decision.split policy).retained ∧ again.sets.released = [] ∧
      again.sets.releasedStates = [] ∧ again.counts = ⟨0, 0, 0, 0, 0⟩ := by
  obtain ⟨graph', built, prunedGraph⟩ := pruned.built_pruned made.built
  obtain ⟨warnings, ⟨made'⟩⟩ :=
    made_pruned made prunedGraph built input pruned.branches pruned.holds
  have split := split_pruned history prunedGraph warnings
  have states := releasedStates_pruned history prunedGraph made'
  have counts := counts_pruned history prunedGraph made'
  obtain ⟨retained, root, -⟩ := bind_eq_ok.1 rooted
  have rooted' : rootsOf env ((decision.pruned graph' warnings).split policy)
      ((decision.pruned graph' warnings).releasedStates view' policy) =
      .ok ⟨retained, Transparency.treeHash (merkle env) [], Transparency.treeHash (merkle env) [],
        Transparency.treeHash (merkle env) []⟩ := by
    rw [split, states, rootsOf]
    simp only [root, frontierRoot, rootOf_nil]
    rfl
  refine ⟨_, plan_eq_ok.2 ⟨_, _, digest, ⟨made'⟩, ?_, rooted', digested, rfl⟩, ?_, ?_, ?_, ?_⟩
  · rw [counts]
    rfl
  · exact (congrArg Split.retained split).trans rfl
  · exact (congrArg Split.released split).trans rfl
  · exact states
  · exact counts

/-- The calls for what a plan leaves: those for the released commits are gone, and the plan's
skeleton rows are added. -/
def remaining (result : HorizonPlan) (calls : List Call) : List Call :=
  calls.filter (Call.staysWith (· ∈ result.sets.retained)) ++ result.sets.skeleton.map .skeleton

theorem prunedView_of_remaining (told : Describes project objects calls view)
    (told' : Describes project objects (remaining result calls) view')
    (made : decision.Made view policy options)
    (retained : result.sets.retained = decision.graph.bodies.keys.filter (· ∈ decision.kept))
    (rows : result.sets.skeleton =
      (decision.graph.bodies.keys.filter (· ∉ decision.kept)).map decision.graph.row) :
    PrunedView decision.kept decision.graph view view' := by
  have left := prunedTo_run (· ∈ result.sets.retained) calls
  have content : view'.content = _ := told'.content.trans (run_skeletons _ _)
  have before := told.content
  refine ⟨?_, ?_, fun commit => ?_, ?_⟩
  · exact (congrArg Content.branches content).trans (left.branches.trans (by rw [← before]; rfl))
  · exact (congrArg Content.holds content).trans (left.holds.trans (by rw [← before]; rfl))
  · have commits := (congrArg Content.commits content).trans left.commits
    rw [← before] at commits
    rw [commits, mem_filter]
    refine and_congr_right fun mem => ?_
    have stored : commit.node.address ∈ decision.graph.bodies := by
      rw [made.built.bodies, ExtTreeMap.mem_iff_isSome_getElem?,
        mem_bodies_content.2 ⟨commit, mem, rfl, rfl⟩]
      rfl
    simp [retained, stored]
  · have skeleton := congrArg Content.skeleton content
    rw [left.skeleton, ← before, rows, made.built.bodies] at skeleton
    exact skeleton

theorem build_remaining
    (result : HorizonPlan) (built : build project objects calls = .ok view) :
    ∃ view', build project objects (remaining result calls) = .ok view' := by
  obtain ⟨valid, distinct⟩ := build_ok_iff.1 ⟨view, built⟩
  refine build_ok_iff.2 ⟨fun call mem => ?_, ?_⟩
  · rcases mem_append.1 mem with mem | mem
    · exact valid call (mem_filter.1 mem).1
    · obtain ⟨entry, -, rfl⟩ := mem_map.1 mem
      trivial
  · have branches : (remaining result calls).filterMap Call.branch? = calls.filterMap Call.branch? := by
      rw [← run_branches, ← run_branches, remaining, run_skeletons]
      exact (prunedTo_run _ calls).branches
    rwa [branches]

theorem checkInput_remaining (told : Describes project objects calls view)
    (told' : Describes project objects (remaining result calls) view')
    (input : checkInput view options = .ok ()) : checkInput view' options = .ok () := by
  have left := prunedTo_run (· ∈ result.sets.retained) calls
  have content : view'.content = _ := told'.content.trans (run_skeletons _ _)
  obtain ⟨short, few, sizes, children, roots⟩ := checkInput_eq_ok.1 input
  rw [told.content] at few roots
  rw [checkInput_eq_ok, told'.objects, ← told.objects, content]
  refine ⟨short, ?_, sizes, children, fun key object found => ?_⟩
  · exact left.holds ▸ few
  · exact roots key object (left.objects key object found)

/-- Planning what a plan leaves retains the same commits and releases nothing. -/
theorem planning_again_releases_nothing (env : Hashing) (project : Uuid) (objects : ObjectGraph)
    (calls : List Call) (policy : Policy) (options : PlanOptions) (result : HorizonPlan)
    (history : policy.tier = .history) (keep : policy.topology = .keep)
    (planned : outcome env project objects calls policy options = .ok result) :
    ∃ again, outcome env project objects (remaining result calls) policy options = .ok again ∧
      again.sets.retained = result.sets.retained ∧ again.sets.released = [] ∧
      again.sets.releasedStates = [] ∧ again.counts = ⟨0, 0, 0, 0, 0⟩ := by
  obtain ⟨view, build, planned⟩ := bind_eq_ok.1 planned
  obtain ⟨decision, roots, digest, ⟨made⟩, -, rooted, digested, same⟩ := plan_eq_ok.1 planned
  have split : result.sets.retained = (decision.split policy).retained ∧
      result.sets.skeleton = (decision.split policy).skeleton := by
    rw [same]
    exact ⟨rfl, rfl⟩
  have rows : result.sets.skeleton =
      (decision.graph.bodies.keys.filter (· ∉ decision.kept)).map decision.graph.row := by
    rw [split.2, ← released_history history, Decision.split, splitCommits, keep]
    rfl
  obtain ⟨view', build'⟩ := build_remaining result build
  have told := describes_of_build build
  have told' := describes_of_build build'
  have pruned := prunedView_of_remaining told told' made
    (split.1.trans (retained_history history)) rows
  obtain ⟨again, planned', facts⟩ := plan_pruned history made pruned
    (checkInput_remaining told told' made.input) rooted digested
  exact ⟨again, bind_eq_ok.2 ⟨view', build', planned'⟩, split.1 ▸ facts⟩

end Again

/-- A merge whose history is released: the second plan works on skeleton rows. -/
theorem released_chain_stays_released :
    let calls := [smallCommit 1 1 [] none, smallCommit 2 1 [1] none, smallCommit 3 1 [2] none,
      smallCommit 4 1 [2] none, smallCommit 5 3 [3, 4] none, smallHead "main" 5,
      .stateObject (smallState 1) 0]
    ∃ result again, smallOutcome calls = .ok result ∧ result.sets.released = [smallAddress 1] ∧
      smallOutcome (remaining result calls) = .ok again ∧
      again.sets.retained = result.sets.retained ∧ again.sets.released = [] := by
  intro calls
  have released : (smallOutcome calls).toOption.map (fun result => result.sets.released) =
      some [smallAddress 1] := by decide +kernel
  obtain ⟨result, found, released⟩ := Option.map_eq_some_iff.1 released
  have planned := toOption_eq_some.1 found
  obtain ⟨again, planned', retained, nothing, -⟩ :=
    planning_again_releases_nothing _ _ _ calls _ _ result rfl rfl planned
  exact ⟨result, again, planned, released, planned', retained, nothing⟩

end Dynodoc.Horizon
