import Dynodoc.Horizon.Graph
import Dynodoc.Lib.Worklist

/-! The planner of a horizon: which commits stay, why, and what would be released. -/
namespace Dynodoc.Horizon
open Std (ExtTreeMap ExtTreeSet)
open Checkpoint (Address)
open Log (Uuid Hashing utf8 uuidText)
open Sorted Std.ExtTreeSet

inductive Tier where
  | content
  | history
  deriving DecidableEq

def Tier.text : Tier → String
  | content => "content"
  | history => "history"

inductive Topology where
  | keep
  | drop
  deriving DecidableEq

def Topology.text : Topology → String
  | keep => "keep"
  | drop => "drop"

inductive ReviewedCandidates where
  | none
  | body
  | bodyStates

def ReviewedCandidates.text : ReviewedCandidates → String
  | none => "none"
  | body => "body"
  | bodyStates => "body+states"

inductive MergeInputs where
  | none
  | bodies
  | states
  deriving DecidableEq

def MergeInputs.text : MergeInputs → String
  | none => "none"
  | bodies => "bodies"
  | states => "states"

structure Window where
  keepWithinDays : Option Nat
  keepLastCommits : Option Nat
  minCommitsKept : Option Nat

structure MergeBases where
  against : String
  branches : List String

/-- A pattern that ends in a star matches what begins with the rest of it. -/
def MergeBases.matches (bases : MergeBases) (branch : String) : Bool :=
  bases.branches.any fun pattern =>
    if pattern.toList.getLast? = some '*' then pattern.toList.dropLast.isPrefixOf branch.toList
    else pattern = branch

structure Protect where
  branchHeads : Bool
  namedVersions : Bool
  mergeBases : Option MergeBases
  openReviewCandidates : Bool
  reviewedCandidates : ReviewedCandidates
  recoverySources : Bool
  mergeInputs : MergeInputs
  holds : Bool
  commits : List Address

structure ArchivePolicy where
  required : Bool
  destination : Option String

structure Policy where
  id : String
  description : String
  tier : Tier
  window : Window
  protect : Protect
  topology : Topology
  acknowledgeUnmergeableHistory : Bool
  archive : ArchivePolicy
  signaturesRequired : Nat
  quarantineDays : Nat

def number (n : Int) : Value := .num (.int n)

/-- A member that is left out when it is not set. -/
def optional {α : Type} (key : String) (toValue : α → Value) (o : Option α) :
    List (String × Value) :=
  (o.map fun a => (key, toValue a)).toList

def Policy.toValue (policy : Policy) : Value :=
  let window := policy.window
  let protect := policy.protect
  .fields [
    ("version", number 1), ("id", .str policy.id), ("description", .str policy.description),
    ("tier", .str policy.tier.text),
    ("window", .fields (optional "keep_within_days" (number ∘ Int.ofNat) window.keepWithinDays ++
      optional "keep_last_commits" (number ∘ Int.ofNat) window.keepLastCommits ++
      optional "min_commits_kept" (number ∘ Int.ofNat) window.minCommitsKept)),
    ("protect", .fields ([
      ("branch_heads", .bool protect.branchHeads), ("named_versions", .bool protect.namedVersions),
      ("open_review_candidates", .bool protect.openReviewCandidates),
      ("reviewed_candidates", .str protect.reviewedCandidates.text),
      ("recovery_sources", .bool protect.recoverySources),
      ("merge_inputs", .str protect.mergeInputs.text), ("holds", .bool protect.holds),
      ("commits", .array (protect.commits.map fun a => .str (hex a)))] ++
      optional "merge_bases" (fun bases => .fields [("against", .str bases.against),
        ("branches", .array (bases.branches.map .str))]) protect.mergeBases)),
    ("topology", .str policy.topology.text),
    ("acknowledge_unmergeable_history", .bool policy.acknowledgeUnmergeableHistory),
    ("archive", .fields (("required", .bool policy.archive.required) ::
      optional "destination" .str policy.archive.destination)),
    ("signatures", .fields [("required", number policy.signaturesRequired)]),
    ("quarantine_days", number policy.quarantineDays)]

def Policy.hash (env : Hashing) (policy : Policy) : Address :=
  env.sha256 (utf8 "dynodoc.retention-policy\x00v1\x00" ++ env.canonicalJson policy.toValue)

structure PlanOptions where
  asOfMs : Option Int
  list : Nat

inductive Reason where
  | branchHead
  | hold
  | policyCommit
  | mergeBase
  | recentCount
  | recentTime
  | evidenceRecovery
  | evidenceMerge
  deriving DecidableEq

namespace Reason

def all : List Reason :=
  [branchHead, hold, policyCommit, mergeBase, recentCount, recentTime, evidenceRecovery,
    evidenceMerge]

def label : Reason → String
  | branchHead => "branch-head"
  | hold => "hold"
  | policyCommit => "policy-commit"
  | mergeBase => "merge-base"
  | recentCount => "recent-count"
  | recentTime => "recent-time"
  | evidenceRecovery => "evidence-recovery"
  | evidenceMerge => "evidence-merge"

/-- Kept for its own sake, not as evidence for another kept commit. -/
def primary : Reason → Bool
  | evidenceRecovery | evidenceMerge => false
  | _ => true

/-- Listed among the pinned examples. -/
def pinned : Reason → Bool
  | branchHead | recentCount | recentTime => false
  | _ => true

end Reason

/-- Why each kept commit stays: the first reason that applied. -/
abbrev Reasons := ExtTreeMap Address Reason

def mark (keep : Reasons) (offer : Address × Reason) : Reasons := keep.insertIfNew offer.1 offer.2

def markAll (keep : Reasons) (offers : List (Address × Reason)) : Reasons := offers.foldl mark keep

section Rules

variable (graph : Graph)

def addHead (nodes : ExtTreeMap String Address) (head : HeadRef) :
    Except Error (ExtTreeMap String Address) :=
  if head.commit ∈ graph.bodies then .ok (nodes.insert head.branch head.commit)
  else if head.commit ∈ graph.released then
    .error (.violated .h6 ("the head of " ++ head.branch ++ " was released by an earlier horizon"))
  else .error (.missing head.commit)

def pin (reason : Reason) (commits : List Address) : List (Address × Reason) :=
  (commits.filter (· ∈ graph.bodies)).map (·, reason)

def notStored (what : String) (commits : List Address) : List String :=
  (commits.filter (· ∉ graph.bodies)).map fun commit =>
    what ++ " " ++ hex commit ++ " is not a stored commit"

/-- Every best common ancestor of the head that a policy compares with and a matching one. -/
def forkPoints (parents : Address → List Address) (policy : Policy)
    (heads : ExtTreeMap String Address) : Except Error (List Address) :=
  match policy.protect.mergeBases with
  | none => .ok []
  | some bases =>
    match heads[bases.against]? with
    | none => .ok []
    | some against => do
      let matching := heads.toList.filter fun head =>
        head.1 ≠ bases.against ∧ bases.matches head.1
      let found ← matching.mapM fun head => mergeBases parents against head.2
      .ok found.flatten

def againstWarning (policy : Policy) (heads : ExtTreeMap String Address) : List String :=
  match policy.protect.mergeBases with
  | none => []
  | some bases =>
    if bases.against ∈ heads then []
    else ["merge_bases.against branch " ++ bases.against ++
      " does not exist; no fork point was pinned"]

/-- The commits along first parents, as far as they are stored. -/
def firstParents : Nat → Option Address → List Address
  | 0, _ | _, none => []
  | count + 1, some node =>
    node :: firstParents count ((graph.parents node).head?.filter (· ∈ graph.bodies))

def Policy.count (policy : Policy) : Option Nat :=
  match policy.window.keepLastCommits, policy.window.minCommitsKept with
  | some last, some least => some (max last least)
  | some last, none => some last
  | none, least => least

def recentCount (policy : Policy) (heads : ExtTreeMap String Address) : List Address :=
  match policy.count with
  | none => []
  | some count => heads.toList.flatMap fun head => firstParents graph count (some head.2)

def recentTime (cutoff : Option Int) : List Address :=
  match cutoff with
  | none => []
  | some cutoff =>
    (graph.bodies.toList.filter fun entry => entry.2.authoredAtMs ≥ cutoff).map Prod.fst

def primaryOffers (policy : Policy) (cutoff : Option Int) (heads : ExtTreeMap String Address)
    (held : List Hold) (forks : List Address) : List (Address × Reason) :=
  (heads.toList.map fun head => (head.2, .branchHead)) ++
    pin graph .hold (held.map Hold.commit) ++
    pin graph .policyCommit policy.protect.commits ++
    pin graph .mergeBase forks ++
    (recentCount graph policy heads).map (·, .recentCount) ++
    (recentTime graph cutoff).map (·, .recentTime)

def keepPrimary (policy : Policy) (cutoff : Option Int) (heads : ExtTreeMap String Address)
    (held : List Hold) (forks : List Address) : Reasons :=
  markAll ∅ (primaryOffers graph policy cutoff heads held forks)

def mergeEvidence (parents : Address → List Address) (commit : CommitNode) :
    Except Error (List Address) :=
  match commit.parents with
  | [left, right] => do
    match ← mergeBases parents left right with
    | [base] => .ok (commit.parents ++ [base])
    | _ => .error (.plan "a merge commit has no unique merge base")
  | _ => .ok commit.parents

def evidenceOf (parents : Address → List Address) (commit : CommitNode) :
    Except Error (List (Address × Reason)) :=
  match commit.version with
  | 2 => .ok ((commit.recovery ++ commit.parents.head?.toList).map (·, .evidenceRecovery))
  | 3 => do
    let nodes ← mergeEvidence parents commit
    .ok (nodes.map (·, .evidenceMerge))
  | _ => .ok []

def keptBodies (keep : Reasons) : List CommitNode :=
  (graph.bodies.toList.filter fun entry => entry.1 ∈ keep).map Prod.snd

/-- Rule 4, one level of evidence, from the commits kept for their own sake. -/
def evidence (primary : Reasons) : Except Error (List (Address × Reason)) := do
  let lists ← (keptBodies graph primary).mapM (evidenceOf graph.parents)
  .ok lists.flatten

def keepEvidence (primary : Reasons) (evidence : List (Address × Reason)) : Reasons :=
  markAll primary (evidence.filter fun offer => offer.1 ∈ graph.bodies)

def evidenceWarnings (evidence : List (Address × Reason)) : List String :=
  (evidence.filter fun offer => offer.1 ∉ graph.bodies).map fun offer =>
    "evidence commit " ++ hex offer.1 ++ " was released by an earlier horizon"

def warningsOf (policy : Policy) (heads : ExtTreeMap String Address) (held : List Hold)
    (evidence : List (Address × Reason)) : ExtTreeSet String :=
  .ofList (notStored graph "hold on" (held.map Hold.commit) ++
    notStored graph "protected commit" policy.protect.commits ++ againstWarning policy heads ++
    evidenceWarnings graph evidence)

end Rules

section Objects

variable (children : List (List Nat))

def childrenOf (object : Nat) : List Nat := children[object]?.getD []

/-- The objects that are reached from some roots and were not known before. -/
def walkFrom (known roots : List Nat) : List Nat :=
  Worklist.walk (childrenOf children) known (roots.length + (children.map List.length).sum)
    roots.reverse []

end Objects

structure PlanRoots where
  retained : Address
  roots : Roots

structure PlanSets where
  retained : List Address
  released : List Address
  skeleton : List SkeletonEntry
  frontier : List FrontierEdge
  releasedStates : List StateKey
  kept : List (Address × String)

structure ReleasedExample where
  commit : Address
  bytes : Nat
  height : Nat

structure HorizonPlan where
  project : Uuid
  planHash : String
  tier : Tier
  topology : Topology
  asOfMs : Option Int
  policyId : String
  policyHash : Address
  headsDigest : Address
  heads : List HeadRef
  total : Nat
  counts : Counts
  objectsMeasured : Bool
  roots : PlanRoots
  reasons : List (String × Nat)
  evidence : List String
  holds : List Hold
  warnings : List String
  releasedExamples : List ReleasedExample
  pinnedExamples : List (Address × String)
  sets : PlanSets

namespace HorizonPlan

def text (address : Address) : Value := .str (hex address)

def bound (plan : HorizonPlan) : List (String × Value) :=
  [("format", .str "dynodoc.horizon-plan.v1"), ("project", .str (uuidText plan.project)),
    ("read_only", .bool true), ("tier", .str plan.tier.text),
    ("topology", .str plan.topology.text)] ++
  optional "as_of_ms" number plan.asOfMs ++
  [("policy", .fields [("id", .str plan.policyId), ("hash", text plan.policyHash)]),
    ("heads_digest", text plan.headsDigest),
    ("heads", .array (plan.heads.map fun head => .fields [("branch", .str head.branch),
      ("commit", text head.commit), ("generation", number head.generation)])),
    ("commits", .fields [("total", number plan.total),
      ("retained", number plan.sets.retained.length),
      ("released", number plan.sets.released.length)]),
    ("counts", .fields [("commits_released", number plan.counts.commitsReleased),
      ("commit_bytes_released", number plan.counts.commitBytesReleased),
      ("states_released", number plan.counts.statesReleased),
      ("objects_released", number plan.counts.objectsReleased),
      ("object_bytes_released", number plan.counts.objectBytesReleased)]),
    ("objects_measured", .bool plan.objectsMeasured),
    ("roots", .fields [("retained", text plan.roots.retained),
      ("skeleton", text plan.roots.roots.skeleton), ("frontier", text plan.roots.roots.frontier),
      ("released_states", text plan.roots.roots.releasedStates)]),
    ("reasons", .array (plan.reasons.map fun (reason, commits) =>
      .fields [("reason", .str reason), ("commits", number commits)])),
    ("evidence", .array (plan.evidence.map .str)),
    ("holds", .array (plan.holds.map fun hold =>
      .fields [("commit", text hold.commit), ("reason", .str hold.reason)])),
    ("warnings", .array (plan.warnings.map .str))]

def computeHash (env : Hashing) (plan : HorizonPlan) : String :=
  hex (env.sha256 (utf8 "dynodoc.horizon-plan-hash\x00v1\x00" ++
    env.canonicalJson (.fields plan.bound)))

def withHash (env : Hashing) (plan : HorizonPlan) : HorizonPlan :=
  { plan with planHash := plan.computeHash env }

def draftRecord (plan : HorizonPlan) (sequence : Nat) : HorizonRecord :=
  ⟨sequence, plan.counts, plan.roots.roots, plan.evidence⟩

end HorizonPlan

@[ext] structure Split where
  retained : List Address
  released : List Address
  skeleton : List SkeletonEntry
  frontier : List FrontierEdge

/-- The edges from a retained commit to a released parent. -/
def frontierOf (graph : Graph) (retained released : List Address) : List FrontierEdge :=
  sortBy FrontierEdge.cmp (retained.flatMap fun a =>
    ((graph.parents a).filter (· ∈ released)).map fun parent => ⟨a, parent, graph.height parent⟩)

def splitCommits (graph : Graph) (policy : Policy) (kept : Reasons) : Split :=
  let history := policy.tier = .history
  let retained := graph.bodies.keys.filter fun a => ¬ history ∨ a ∈ kept
  let released := graph.bodies.keys.filter fun a => history ∧ a ∉ kept
  { retained := retained
    released := released
    skeleton := if policy.topology = .drop then []
      else released.map graph.row
    frontier := frontierOf graph retained released }

structure SplitStates where
  retained : ExtTreeSet Nat
  all : ExtTreeSet Nat
  released : List Nat

def keepsFiles (policy : Policy) (kept : Reasons) (retained : List Address) (a : Address) : Bool :=
  if policy.tier = .history then a ∈ retained
  else kept[a]?.any fun reason => reason.primary || reason = .evidenceRecovery

def keepsInputs (policy : Policy) (primary : Reasons) (a : Address) : Bool :=
  policy.tier ≠ .history && policy.protect.mergeInputs = .states && a ∈ primary

def splitStates (view : HistoryView) (files inputs : Address → Bool) : SplitStates :=
  let retained := ofList
    ((view.commits.filter fun commit => files commit.address).flatMap ViewCommit.files ++
      (view.commits.filter fun commit => inputs commit.address).flatMap ViewCommit.inputs)
  let all := ofList (view.commits.flatMap ViewCommit.files)
  ⟨retained, all, all.toList.filter (· ∉ retained)⟩

def releasedObjects (view : HistoryView) (states : SplitStates) : List Nat :=
  let kept := walkFrom view.objects.children []
    (states.retained.toList.filterMap (view.stateObjects[·]?))
  walkFrom view.objects.children kept (states.released.filterMap (view.stateObjects[·]?))

def isMeasured (view : HistoryView) (states : SplitStates) : Bool :=
  states.released.all (· ∈ view.stateObjects) &&
    (states.retained.toList.filter (· ∈ states.all)).all (· ∈ view.stateObjects)

def i64Min : Int := -2 ^ 63

/-- The time from which on commits stay. -/
def cutoffOf (policy : Policy) (options : PlanOptions) : Except Error (Option Int) :=
  match policy.window.keepWithinDays, options.asOfMs with
  | some days, some asOf => .ok (some (max i64Min (asOf - days * 86400000)))
  | some _, none => .error (.plan "keep_within_days needs an explicit as_of_ms")
  | none, _ => .ok none

def checkInput (view : HistoryView) (options : PlanOptions) : Except Error Unit :=
  let objects := view.objects
  if options.list > 1000 then .error (.limit "horizon plan example count")
  else if view.holds.length > 128 then .error (.limit "horizon holds")
  else if objects.sizes.length ≠ objects.children.length ∨
      objects.children.flatten.any (· ≥ objects.sizes.length) ∨
      (view.stateObjects.toList.map Prod.snd).any (· ≥ objects.sizes.length) then
    .error (.format "object graph")
  else .ok ()

def Hold.cmp : Hold → Hold → Ordering := compareLex (compareOn Hold.commit) (compareOn Hold.reason)

instance Hold.transCmp : Std.TransCmp Hold.cmp :=
  inferInstanceAs (Std.TransCmp (compareLex (compareOn Hold.commit) (compareOn Hold.reason)))

/-- The holds, sorted and without repeats. -/
def heldOf (view : HistoryView) : List Hold := sortBy Hold.cmp view.holds.dedup

def evidenceWords (policy : Policy) (held : List Hold) : List String :=
  (ofList (["recovery_sources", "merge_inputs:" ++ policy.protect.mergeInputs.text] ++
    (if policy.protect.mergeBases.isSome then ["merge_bases"] else []) ++
    (if held ≠ [] then ["holds"] else []) ++
    if policy.topology = .drop then ["topology:drop"] else [])).toList

-- The two byte totals are sums of u64 numbers, which wrap in a release build.
def countsOf (view : HistoryView) (graph : Graph) (split : Split) (states : SplitStates) : Counts :=
  let objects := releasedObjects view states
  { commitsReleased := split.released.length
    commitBytesReleased :=
      (split.released.map fun a => (graph.bodies[a]?.map CommitNode.bytes).getD 0).sum % 2 ^ 64
    statesReleased := states.released.length
    objectsReleased := objects.length
    objectBytesReleased :=
      (objects.map fun object => view.objects.sizes[object]?.getD 0).sum % 2 ^ 64 }

def checkCounts (counts : Counts) : Except Error Unit :=
  if counts.commitsReleased > maxJsonInt ∨ counts.commitBytesReleased > maxJsonInt ∨
      counts.statesReleased > maxJsonInt ∨ counts.objectsReleased > maxJsonInt ∨
      counts.objectBytesReleased > maxJsonInt then
    .error (.limit "horizon counts")
  else .ok ()

def reasonCounts (kept : Reasons) : List (String × Nat) :=
  Reason.all.filterMap fun reason =>
    match (kept.toList.filter fun entry => entry.2 = reason).length with
    | 0 => none
    | count + 1 => some (reason.label, count + 1)

def rootsOf (env : Hashing) (split : Split) (releasedStates : List StateKey) :
    Except Error PlanRoots := do
  let retained ← retainedRoot env split.retained
  let skeleton ← skeletonRoot env split.skeleton
  let frontier ← frontierRoot env split.frontier
  let states ← releasedStatesRoot env releasedStates
  .ok ⟨retained, skeleton, frontier, states⟩

/-- What the rules decide: the heads by name, the commits kept for their own sake, and all
that are kept. -/
structure Decision where
  graph : Graph
  heads : List HeadRef
  primary : Reasons
  kept : Reasons
  warnings : ExtTreeSet String

def Decision.make (view : HistoryView) (policy : Policy) (options : PlanOptions) :
    Except Error Decision := do
  checkInput view options
  let cutoff ← cutoffOf policy options
  let graph ← Graph.build view
  let heads := sortBy (compareOn HeadRef.branch) view.branches
  let headNodes ← heads.foldlM (addHead graph) ∅
  let held := heldOf view
  let forks ← forkPoints graph.parents policy headNodes
  let primary := keepPrimary graph policy cutoff headNodes held forks
  let evidence ← evidence graph primary
  .ok ⟨graph, heads, primary, keepEvidence graph primary evidence,
    warningsOf graph policy headNodes held evidence⟩

section Results

variable (view : HistoryView) (policy : Policy) (options : PlanOptions) (decision : Decision)

def Decision.split : Split := splitCommits decision.graph policy decision.kept

def Decision.keepsFiles : Address → Bool :=
  Horizon.keepsFiles policy decision.kept (decision.split policy).retained

def Decision.keepsInputs : Address → Bool := Horizon.keepsInputs policy decision.primary

def Decision.states : SplitStates :=
  splitStates view (decision.keepsFiles policy) (decision.keepsInputs policy)

def Decision.releasedStates : List StateKey :=
  sortBy compare ((decision.states view policy).released.filterMap (view.states[·]?))

def Decision.counts : Counts :=
  countsOf view decision.graph (decision.split policy) (decision.states view policy)

/-- The plan without its hash. -/
def Decision.describe (env : Hashing) (roots : PlanRoots) (digest : Address) : HorizonPlan :=
  let graph := decision.graph
  let kept := decision.kept
  let split := decision.split policy
  let held := heldOf view
  { project := view.project
    planHash := ""
    tier := policy.tier
    topology := policy.topology
    asOfMs := if policy.window.keepWithinDays.isSome then options.asOfMs else none
    policyId := policy.id
    policyHash := policy.hash env
    headsDigest := digest
    heads := decision.heads
    total := graph.bodies.size
    counts := decision.counts view policy
    objectsMeasured := isMeasured view (decision.states view policy)
    roots := roots
    reasons := reasonCounts kept
    evidence := evidenceWords policy held
    holds := held
    warnings := decision.warnings.toList
    releasedExamples := (split.released.take options.list).map fun a =>
      ⟨a, (graph.bodies[a]?.map CommitNode.bytes).getD 0, graph.height a⟩
    pinnedExamples := (split.retained.filterMap fun a =>
      (kept[a]?.filter Reason.pinned).map fun reason => (a, reason.label)).take options.list
    sets := {
      retained := split.retained
      released := split.released
      skeleton := split.skeleton
      frontier := split.frontier
      releasedStates := decision.releasedStates view policy
      kept := kept.toList.map fun entry => (entry.1, entry.2.label) } }

end Results

def plan (env : Hashing) (view : HistoryView) (policy : Policy) (options : PlanOptions) :
    Except Error HorizonPlan := do
  let decision ← Decision.make view policy options
  checkCounts (decision.counts view policy)
  let roots ← rootsOf env (decision.split policy) (decision.releasedStates view policy)
  let digest ← headsDigest env decision.heads
  .ok ((decision.describe view policy options env roots digest).withHash env)

end Dynodoc.Horizon
