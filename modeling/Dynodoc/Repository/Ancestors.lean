import Dynodoc.Horizon.Bases
import Dynodoc.Repository.Commit

/-! Merge bases as the local repository computes them from its stored commits, and as the planner
of a horizon does from a graph: both are the best common ancestors. -/
namespace Dynodoc.Repository
open Std (ExtTreeMap ExtTreeSet)
open Checkpoint (Address plainAddress)
open Horizon (Graph HistoryView maxAncestors)
open Ancestry Worklist List OrderedMap Horizon

variable {found : ExtTreeMap Address (List Address)} {visited : List Address} {env : Externals}

def maxAncestorBytes : Nat := 64 * 1024 * 1024

section Local

variable (env : Externals) (load : Address → Except Error SignedCommit)

/-- The loop over the queue; the budget is what is left of the allowed number of commits. -/
def collectFrom (budget : Nat) (queue : List Address) (found : ExtTreeMap Address (List Address))
    (bytes : Nat) :
    Except Error (ExtTreeMap Address (List Address)) :=
  match queue with
  | [] => .ok found
  | address :: queue =>
    if address ∈ found then collectFrom budget queue found bytes
    else
      match budget with
      | 0 => .error (.limit "ancestor count")
      | budget + 1 => do
        let signed ← load address
        let size := (← signed.commit.bytes env).length
        if bytes < size then .error (.limit "ancestor bytes")
        else
          collectFrom budget (queue ++ signed.commit.parents) (found.insert address signed.commit.parents)
            (bytes - size)
termination_by (budget, queue.length)

/-- A commit and its ancestors along parents, each with its parents. -/
def collectAncestors (head : Address) : Except Error (ExtTreeMap Address (List Address)) :=
  collectFrom env load maxAncestors [head] ∅ maxAncestorBytes

def bestCommon (left right : ExtTreeMap Address (List Address)) : List Address :=
  let common := left.keys.filter (· ∈ right)
  let dominated := ExtTreeSet.ofList (common.flatMap fun key => left[key]?.getD [])
  common.filter (· ∉ dominated)

def mergeBases (left right : Address) : Except Error (List Address) := do
  let left ← collectAncestors env load left
  let right ← collectAncestors env load right
  .ok (bestCommon left right)

end Local

section Collect

variable {load : Address → Except Error SignedCommit} {parents : Address → List Address}
  {size : Address → Nat} {head : Address}

/-- Every commit of an ancestry is stored, with these parents and this many bytes. -/
def Stores (env : Externals) (load : Address → Except Error SignedCommit) (parents : Address → List Address)
    (size : Address → Nat) (head : Address) : Prop :=
  ∀ a, Ancestor parents head a → ∃ signed bytes, load a = .ok signed ∧ signed.commit.parents = parents a ∧
    signed.commit.bytes env = .ok bytes ∧ bytes.length = size a

def BytesWithin (parents : Address → List Address) (size : Address → Nat) (limit : Nat)
    (head : Address) : Prop :=
  ∀ l : List Address, l.Nodup → (∀ a ∈ l, Ancestor parents head a) → (l.map size).sum ≤ limit

def Holds (parents : Address → List Address) (found : ExtTreeMap Address (List Address))
    (visited : List Address) :
    Prop :=
  ∀ (a : Address) list, found[a]? = some list ↔ a ∈ visited ∧ list = parents a

theorem Holds.mem
    (holds : Holds parents found visited) (a : Address) : a ∈ found ↔ a ∈ visited := by
  rw [OrderedMap.mem_iff_exists]
  simp only [holds a]
  simp

theorem Holds.insert (holds : Holds parents found visited) (a : Address) :
    Holds parents (found.insert a (parents a)) (a :: visited) := by
  intro other list
  rw [OrderedMap.getElem?_insert]
  split
  · rename_i same
    subst same
    simp [eq_comm]
  · rename_i differ
    rw [holds, mem_cons, or_iff_right differ]

theorem collectFrom_spec (stores : Stores env load parents size head) {budget bytes : Nat}
    {queue visited : List Address} {found : ExtTreeMap Address (List Address)}
    (walking : Walking parents [] [head] queue visited) (holds : Holds parents found visited)
    (few : Within parents (visited.length + budget) head)
    (small : BytesWithin parents size ((visited.map size).sum + bytes) head) :
    ∃ all reached, collectFrom env load budget queue found bytes = .ok all ∧ Holds parents all reached ∧
      Walking parents [] [head] [] reached := by
  induction budget, queue, found, bytes using collectFrom.induct generalizing visited with
  | case1 budget found bytes => exact ⟨found, visited, by rw [collectFrom], holds, walking⟩
  | case2 budget found bytes a queue old ih =>
    rw [collectFrom.eq_def]
    dsimp only
    rw [if_pos old]
    exact ih (walking.skip (.inr ((holds.mem a).1 old))) holds few small
  | case3 found bytes a queue old =>
    -- One more commit than the limit has been reached.
    have more := few (a :: visited) (nodup_cons.2 ⟨fun mem => old ((holds.mem a).2 mem), walking.nodup⟩)
      fun other mem => walking.path (by simp at mem ⊢; tauto)
    simp at more
  | case4 found bytes a queue old budget ih =>
    rw [collectFrom, if_neg old]
    have new : a ∉ visited := fun mem => old ((holds.mem a).2 mem)
    have reached : Ancestor parents head a := walking.path (by simp)
    obtain ⟨signed, text, loaded, sameParents, encoded, length⟩ := stores a reached
    have total := small (a :: visited) (nodup_cons.2 ⟨new, walking.nodup⟩)
      fun other mem => walking.path (by simp at mem ⊢; tauto)
    rw [map_cons, sum_cons] at total
    have grown : Walking parents [] [head] (queue ++ parents a) (a :: visited) :=
      walking.grow (by simpa using new) (by grind) (by grind) (by grind)
    rw [← sameParents] at grown
    simp only [loaded, encoded, bind, Except.bind]
    rw [if_neg (by omega)]
    refine ih signed text grown (sameParents ▸ holds.insert a) ?_ ?_
    · rw [length_cons, Nat.add_assoc, Nat.add_comm 1]
      exact few
    · intro l nodup each
      have := small l nodup each
      rw [map_cons, sum_cons]
      omega

theorem collectAncestors_spec (stores : Stores env load parents size head)
    (few : Within parents maxAncestors head)
    (small : BytesWithin parents size maxAncestorBytes head) :
    ∃ all, collectAncestors env load head = .ok all ∧
      ∀ (a : Address) list, all[a]? = some list ↔ Ancestor parents head a ∧ list = parents a := by
  have walking : Walking parents [] [head] [head] [] := by
    refine ⟨by simp, by simp, fun node mem => ?_, by simp, by simp⟩
    rw [nil_append, mem_singleton] at mem
    exact ⟨head, by simp, mem ▸ .refl⟩
  obtain ⟨all, reached, collected, holds, walked⟩ := @collectFrom_spec env load parents size head stores
    maxAncestors maxAncestorBytes [head] [] ∅ walking (by simp [Holds]) (by simpa using few)
    (by simpa using small)
  refine ⟨all, collected, fun a list => ?_⟩
  rw [holds, walked.mem_iff (by simp)]
  simp [Reaches, Ancestor]

theorem mergeBases_spec (acyclic : Acyclic parents) {left right : Address}
    (storesLeft : Stores env load parents size left)
    (storesRight : Stores env load parents size right) (fewLeft : Within parents maxAncestors left)
    (fewRight : Within parents maxAncestors right)
    (smallLeft : BytesWithin parents size maxAncestorBytes left)
    (smallRight : BytesWithin parents size maxAncestorBytes right) :
    ∃ bases, mergeBases env load left right = .ok bases ∧ bases.Nodup ∧
      ∀ a, a ∈ bases ↔ Best parents left right a := by
  obtain ⟨leftMap, collected, isLeft⟩ := collectAncestors_spec storesLeft fewLeft smallLeft
  obtain ⟨rightMap, collected', isRight⟩ := collectAncestors_spec storesRight fewRight smallRight
  have common (a : Address) : a ∈ leftMap.keys.filter (· ∈ rightMap) ↔ Common parents left right a := by
    rw [mem_filter, ExtTreeMap.mem_keys, decide_eq_true_eq, ExtTreeMap.mem_iff_isSome_getElem?,
      mem_iff_exists, Option.isSome_iff_exists]
    simp only [isLeft, isRight]
    simp [Common]
  refine ⟨bestCommon leftMap rightMap, ?_, ?_, fun a => ?_⟩
  · simp [mergeBases, collected, collected', bind, Except.bind]
  · exact (ExtTreeMap.nodup_keys.filter _).filter _
  · unfold bestCommon
    rw [mem_filter, common, best_iff acyclic, decide_eq_true_eq, ExtTreeSet.mem_ofList,
      contains_iff_mem, mem_flatMap]
    refine and_congr_right fun _ => ?_
    simp only [common, not_exists, not_and]
    refine forall_congr' fun w => forall_congr' fun commonly => ?_
    rw [(isLeft w (parents w)).2 ⟨commonly.1, rfl⟩, Option.getD_some]

end Collect

section Agreement

variable {load : Address → Except Error SignedCommit} {view : HistoryView} {graph : Graph}
  {size : Address → Nat}

def StoresView (env : Externals) (load : Address → Except Error SignedCommit) (view : HistoryView)
    (size : Address → Nat) : Prop :=
  ∀ commit ∈ view.commits, ∃ signed bytes, load commit.address = .ok signed ∧
    signed.commit.parents = commit.parents ∧ signed.commit.bytes env = .ok bytes ∧
    bytes.length = size commit.address

theorem stores_of_view (built : graph.Built view) (onlyBodies : view.skeleton = [])
    (stored : StoresView env load view size) {head : Address} (known : head ∈ graph.addr) :
    Stores env load graph.parents size head := by
  intro a path
  have mem := built.ancestor_mem known path
  have none : view.released = ∅ := by rw [HistoryView.released, onlyBodies]; rfl
  rw [Graph.addr, mem_nodesOf, built.bodies, built.released, none] at mem
  have isBody : a ∈ view.bodies := by simpa using mem
  obtain ⟨node, found⟩ := mem_iff_exists.1 isBody
  obtain ⟨commit, listed, rfl, rfl⟩ := mem_bodies_iff.1 found
  obtain ⟨signed, bytes, loaded, parents, encoded, length⟩ := stored commit listed
  refine ⟨signed, bytes, loaded, ?_, encoded, length⟩
  rw [parents, Graph.parents, built.bodies, parentsIn, found]

theorem merge_bases_are_best (built : Graph.build view = .ok graph) {queries : List (Nat × Nat)}
    (inside : ∀ query ∈ queries, query.1 < graph.addr.length ∧ query.2 < graph.addr.length)
    (few : queries.length + 1 < 2 ^ 32) {a b : Nat} {left right : Address}
    (isLeft : graph.addr[a]? = some left)
    (isRight : graph.addr[b]? = some right) (withinLeft : Within graph.parents maxAncestors left)
    (withinRight : Within graph.parents maxAncestors right) :
    (∃ bases, (graph.mergeBases a b (graph.scratchAfter queries)).1 = .ok bases ∧ bases.Pairwise (· < ·) ∧
      ∀ v, v ∈ bases ↔ ∃ c, graph.addr[v]? = some c ∧ Best graph.parents left right c) ∧
    (view.skeleton = [] → ∀ env load size, StoresView env load view size →
      BytesWithin graph.parents size maxAncestorBytes left →
      BytesWithin graph.parents size maxAncestorBytes right →
      ∃ bases, mergeBases env load left right = .ok bases ∧ bases.Nodup ∧
        ∀ c, c ∈ bases ↔ Best graph.parents left right c) := by
  have built := Graph.build_eq_ok.1 built
  refine ⟨built.mergeBases_spec inside few isLeft isRight withinLeft withinRight, ?_⟩
  intro onlyBodies env load size stored smallLeft smallRight
  have storesLeft := stores_of_view built onlyBodies stored (mem_of_getElem? isLeft)
  have storesRight := stores_of_view built onlyBodies stored (mem_of_getElem? isRight)
  exact mergeBases_spec built.acyclic storesLeft storesRight withinLeft withinRight smallLeft smallRight

theorem within_of_mem (built : graph.Built view) {limit : Nat} (few : graph.addr.length ≤ limit)
    {a : Address}
    (known : a ∈ graph.addr) : Within graph.parents limit a := by
  intro l nodup reached
  exact (nodup.length_le_of_subset fun v mem => built.ancestor_mem known (reached v mem)).trans few

def sampleNode (n : UInt8) (parents : List Address) : Horizon.ViewCommit where
  address := plainAddress n
  version := 1
  parents := parents
  recovery := []
  authoredAtMs := 0
  bytes := 1
  storedHeight := none
  files := []
  inputs := []

def sampleView (commits : List Horizon.ViewCommit)
    (distinct : (commits.map fun commit => commit.address).Nodup)
    (empty : ∀ commit ∈ commits, commit.files ++ commit.inputs = []) : HistoryView :=
  { HistoryView.new (Log.plainUuid 0) ⟨[], []⟩ with
    commits := commits
    distinct := distinct
    within := by
      intro commit mem i listed
      rw [empty commit mem] at listed
      contradiction }

def forkView : HistoryView :=
  sampleView [sampleNode 1 [], sampleNode 2 [plainAddress 1], sampleNode 3 [plainAddress 1]] (by decide)
    (by simp [sampleNode])

def rootCommit : Commit where
  version := 1
  project := Log.plainUuid 1
  parents := []
  files := ∅
  authorKey := String.ofList (List.replicate 64 '0')
  authoredAtMs := 0
  message := ""
  recovery := none
  sameFileResolutions := []

def forkLoad (a : Address) : Except Error SignedCommit :=
  .ok ⟨{ rootCommit with parents := if a = plainAddress 1 then [] else [plainAddress 1] }, ""⟩

/-- The three commits are stored, and take one byte each. -/
theorem forkView_stored :
    StoresView { lenient with commitText := fun _ => [0] } forkLoad forkView fun _ => 1 := by
  intro commit mem
  refine ⟨_, [0], rfl, ?_⟩
  simp only [forkView, sampleView, mem_cons, not_mem_nil, or_false] at mem
  rcases mem with rfl | rfl | rfl <;> decide +kernel

/-- After other queries on the graph, and from the stored commits. -/
theorem fork_has_its_root : ∃ graph bases stored, Graph.build forkView = .ok graph ∧
    (graph.mergeBases 1 2 (graph.scratchAfter [(1, 2), (0, 2)])).1 = .ok bases ∧
    bases.Pairwise (· < ·) ∧
    (∀ v, v ∈ bases ↔ ∃ c, graph.addr[v]? = some c ∧
      Best graph.parents (plainAddress 2) (plainAddress 3) c) ∧
    mergeBases { lenient with commitText := fun _ => [0] } forkLoad (plainAddress 2) (plainAddress 3) =
      .ok stored ∧ stored.Nodup ∧
    ∀ c, c ∈ stored ↔ Best graph.parents (plainAddress 2) (plainAddress 3) c := by
  cases built : Graph.build forkView with
  | error e =>
    contradiction
  | ok graph =>
    have view := Graph.build_eq_ok.1 built
    have nodes : graph.addr = [plainAddress 1, plainAddress 2, plainAddress 3] := by
      rw [Graph.addr, view.bodies, view.released]
      decide +kernel
    have few : graph.addr.length ≤ maxAncestors := by rw [nodes]; decide
    have inside : ∀ query ∈ [(1, 2), (0, 2)], query.1 < graph.addr.length ∧
      query.2 < graph.addr.length := by
      rw [nodes]
      decide
    have withinLeft := within_of_mem view few (a := plainAddress 2) (by simp [nodes])
    have withinRight := within_of_mem view few (a := plainAddress 3) (by simp [nodes])
    -- as many bytes as commits
    have small (a : Address) (within : Within graph.parents maxAncestors a) :
        BytesWithin graph.parents (fun _ => 1) maxAncestorBytes a := by
      intro l nodup reached
      have count : (l.map fun _ => 1).sum = l.length := by simp
      rw [count]
      exact (within l nodup reached).trans (by decide)
    have isLeft : graph.addr[1]? = some (plainAddress 2) := by rw [nodes]; rfl
    have isRight : graph.addr[2]? = some (plainAddress 3) := by rw [nodes]; rfl
    obtain ⟨⟨bases, found, ordered, best⟩, locally⟩ :=
      merge_bases_are_best built inside (by decide) isLeft isRight withinLeft withinRight
    obtain ⟨stored, computed, distinct, best'⟩ := locally rfl _ forkLoad _ forkView_stored
      (small _ withinLeft) (small _ withinRight)
    exact ⟨graph, bases, stored, rfl, found, ordered, best, computed, distinct, best'⟩

end Agreement

section Wrapped

variable {links : Nat → List Nat}

/-- Without links nothing is ever stamped as a parent. -/
theorem dominated_of_no_links (none : ∀ i, links i = []) (total : Nat) (queries : List (Nat × Nat)) :
    (afterQueries links total queries).dominated = List.replicate total 0 := by
  induction queries using List.reverseRecOn with
  | nil => rfl
  | append_singleton queries query ih =>
    rw [afterQueries, foldl_append]
    change (findBases links query.1 query.2 (afterQueries links total queries)).2.dominated = _
    unfold findBases
    dsimp only
    split
    · exact ih
    · split
      · exact ih
      · have nothing (common : List Nat) : common.flatMap links = [] := by
          rw [flatMap_eq_nil_iff]
          exact fun i _ => none i
        simp only [stampParents, nothing]
        exact ih

theorem stampAncestors_of_no_links (none : ∀ i, links i = []) (start tick : Nat) (stamp : List Nat) :
    stampAncestors links start stamp tick = (.ok [start], stamp.set start tick) := by
  have one : maxAncestors = 99999 + 1 := rfl
  rw [stampAncestors, one, findAncestors, none]
  rfl

/-- The query after the last number has the number that unused stamps have. -/
theorem findBases_wrapped (none : ∀ i, links i = []) {queries : List (Nat × Nat)}
    (inside : ∀ query ∈ queries, query.1 < 1 ∧ query.2 < 1) (last : queries.length = 2 ^ 32 - 1) :
    (findBases links 0 0 (afterQueries links 1 queries)).1 = .ok [] := by
  have linked : Horizon.Linked links 1 := by
    intro i parent edge
    rw [none] at edge
    contradiction
  obtain ⟨fits, tick⟩ := afterQueries_fits linked inside (by omega)
  have dominated := dominated_of_no_links none 1 queries
  have number : ((afterQueries links 1 queries).tick + 1) % 2 ^ 32 = 0 := by
    omega
  obtain ⟨right, isRight⟩ := length_eq_one_iff.1 fits.right
  unfold findBases
  rw [number]
  dsimp only
  rw [stampAncestors_of_no_links none]
  rw [stampAncestors_of_no_links none, isRight, dominated]
  simp [unstamped, stampParents, none]

def rootView : HistoryView := sampleView [sampleNode 1 []] (by decide) (by simp [sampleNode])

/-- A root on its own, after as many queries as a counter of 32 bits can number: it is no longer
found to be its own best common ancestor. -/
theorem query_number_wraps : ∃ graph, Graph.build rootView = .ok graph ∧ graph.addr = [plainAddress 1] ∧
    (graph.mergeBases 0 0 (graph.scratchAfter (List.replicate (2 ^ 32 - 1) (0, 0)))).1 = .ok [] ∧
    Best graph.parents (plainAddress 1) (plainAddress 1) (plainAddress 1) := by
  cases built : Graph.build rootView with
  | error e =>
    contradiction
  | ok graph =>
    have view := Graph.build_eq_ok.1 built
    have nodes : graph.addr = [plainAddress 1] := by
      rw [Graph.addr, view.bodies, view.released]
      decide +kernel
    have root : graph.parents (plainAddress 1) = [] := by
      rw [Graph.parents, view.bodies, view.released]
      decide +kernel
    have none : ∀ i, graph.links i = [] := by
      intro i
      rw [Graph.links, nodes]
      cases i with
      | zero => simp [root]
      | succ i => simp
    have inside : ∀ query ∈ List.replicate (2 ^ 32 - 1) ((0, 0) : Nat × Nat), query.1 < 1 ∧
      query.2 < 1 := by
      intro query mem
      rw [eq_of_mem_replicate mem]
      decide
    refine ⟨graph, rfl, nodes, ?_, (best_iff view.acyclic).2 ⟨⟨.refl, .refl⟩, fun w common edge => ?_⟩⟩
    · rw [Graph.mergeBases, Graph.scratchAfter, nodes]
      exact findBases_wrapped none inside length_replicate
    · rcases common.1.cases_head with rfl | ⟨parent, first, -⟩
      · rw [root] at edge
        exact absurd edge not_mem_nil
      · rw [root] at first
        exact absurd first not_mem_nil

end Wrapped

end Dynodoc.Repository
