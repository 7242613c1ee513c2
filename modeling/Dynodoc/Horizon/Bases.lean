import Dynodoc.Horizon.Rules
import Dynodoc.Lib.Ancestry

/-! Merge bases as the planner computes them: nodes are numbers, stored commits first and by
address, and three lists of stamps are used again by every query without being cleared. -/
namespace Dynodoc.Horizon
open Std (ExtTreeMap ExtTreeSet)
open Checkpoint (Address plainAddress)
open Ancestry Worklist List Option Nat

variable {queries : List (Nat × Nat)} {a : Address} {node : Nat} {common : List Nat}

/-- The stamps of earlier queries stay where they are; each query has a number of its own. -/
structure Scratch where
  tick : Nat
  left : List Nat
  right : List Nat
  dominated : List Nat

def Scratch.fresh (total : Nat) : Scratch :=
  ⟨0, List.replicate total 0, List.replicate total 0, List.replicate total 0⟩

section Queries

variable (links : Nat → List Nat)

def stampNode (tick : Nat) (acc : List Nat × List Nat) (parent : Nat) : List Nat × List Nat :=
  if acc.2[parent]? = some tick then acc else (acc.1 ++ [parent], acc.2.set parent tick)

def findAncestors (tick : Nat) : Nat → List Nat → List Nat → List Nat → Except Error (List Nat) × List Nat
  | _, [], stamp, found => (.ok found, stamp)
  | 0, _ :: _, stamp, _ => (.error (.limit "ancestor count"), stamp)
  | budget + 1, node :: queue, stamp, found =>
    let next := (links node).foldl (stampNode tick) (queue, stamp)
    findAncestors tick budget next.1 next.2 (found ++ [node])

/-- A node and all its ancestors, marking the stamps with the number of the query. -/
def stampAncestors (start : Nat) (stamp : List Nat) (tick : Nat) : Except Error (List Nat) × List Nat :=
  findAncestors links tick maxAncestors [start] (stamp.set start tick) []

def stampParents (tick : Nat) (common stamp : List Nat) : List Nat :=
  (common.flatMap links).foldl (fun stamp parent => stamp.set parent tick) stamp

/-- The common ancestors without a stamp, in order. -/
def unstamped (tick : Nat) (common stamp : List Nat) : List Nat :=
  (common.filter fun v => stamp[v]? ≠ some tick).insertionSort (· ≤ ·)

/-- What a query leaves in the scratch space, and all best common ancestors. The number of a
query has 32 bits. -/
def findBases (a b : Nat) (scratch : Scratch) : Except Error (List Nat) × Scratch :=
  let tick := (scratch.tick + 1) % 2 ^ 32
  match stampAncestors links a scratch.left tick with
  | (.error e, left) => (.error e, { scratch with tick := tick, left := left })
  | (.ok found, left) =>
    match stampAncestors links b scratch.right tick with
    | (.error e, right) => (.error e, { scratch with tick := tick, left := left, right := right })
    | (.ok _, right) =>
      let common := found.filter fun v => right[v]? = some tick
      let dominated := stampParents links tick common scratch.dominated
      (.ok (unstamped tick common dominated), ⟨tick, left, right, dominated⟩)

end Queries

section Stamping

variable {links : Nat → List Nat} {tick start total : Nat} {queue stamp found : List Nat}

/-- Stamping the parents of a node queues those that had no stamp, each once. -/
theorem foldl_stampNode {seen : List Nat} (parents : List Nat)
    (inside : ∀ parent ∈ parents, parent < stamp.length)
    (stamped : ∀ i, stamp[i]? = some tick ↔ i ∈ seen) :
    ∃ new, (parents.foldl (stampNode tick) (queue, stamp)).1 = queue ++ new ∧
      new.Nodup ∧ (∀ i ∈ new, i ∈ parents ∧ i ∉ seen) ∧ (∀ parent ∈ parents, parent ∈ seen ∨ parent ∈ new) ∧
      (parents.foldl (stampNode tick) (queue, stamp)).2.length = stamp.length ∧
      (∀ i : Nat, (parents.foldl (stampNode tick) (queue, stamp)).2[i]? = some tick ↔ i ∈ seen ∨ i ∈ new) ∧
      ∀ i : Nat, (parents.foldl (stampNode tick) (queue, stamp)).2[i]? = some tick ∨
        (parents.foldl (stampNode tick) (queue, stamp)).2[i]? = stamp[i]? := by
  induction parents generalizing queue stamp seen with
  | nil => exact ⟨[], by simp [stamped]⟩
  | cons parent parents ih =>
    have later : ∀ parent ∈ parents, parent < stamp.length := fun other mem => inside other (by simp [mem])
    rw [foldl_cons]
    by_cases old : stamp[parent]? = some tick
    · rw [stampNode, if_pos old]
      obtain ⟨new, pushed, nodup, fresh, covered, length, marks, kept⟩ := @ih queue stamp seen later stamped
      refine ⟨new, pushed, nodup, fun i mem => ?_, fun other mem => ?_, length, marks, kept⟩
      · exact ⟨by simp [(fresh i mem).1], (fresh i mem).2⟩
      · rcases mem_cons.1 mem with rfl | mem
        · exact .inl ((stamped other).1 old)
        · exact covered other mem
    · rw [stampNode, if_neg old]
      have unseen : parent ∉ seen := fun mem => old ((stamped parent).2 mem)
      have stamped' : ∀ i, (stamp.set parent tick)[i]? = some tick ↔ i ∈ parent :: seen := by
        intro i
        grind
      have inside' : ∀ other ∈ parents, other < (stamp.set parent tick).length := by simpa using later
      obtain ⟨new, pushed, nodup, fresh, covered, length, marks, kept⟩ :=
        @ih (queue ++ [parent]) (stamp.set parent tick) (parent :: seen) inside' stamped'
      refine ⟨parent :: new, ?_, ?_, fun i mem => ?_, fun other mem => ?_, ?_, fun i => ?_, fun i => ?_⟩
      · rw [pushed, append_assoc, singleton_append]
      · refine nodup_cons.2 ⟨fun mem => ?_, nodup⟩
        exact (fresh parent mem).2 (by simp)
      · rcases mem_cons.1 mem with rfl | mem
        · exact ⟨by simp, unseen⟩
        · have := fresh i mem
          grind
      · have := covered other
        grind
      · rw [length, length_set]
      · rw [marks]
        simp only [mem_cons]
        tauto
      · rcases kept i with marked | same
        · exact .inl marked
        · rw [same]
          by_cases here : i = parent
          · left
            rw [here]
            exact (stamped' parent).2 (by simp)
          · right
            rw [getElem?_set_ne (Ne.symm here)]

structure Searching (links : Nat → List Nat) (tick start : Nat) (queue stamp found : List Nat) : Prop where
  walking : Walking links [] [start] queue found.reverse
  nodup : (found ++ queue).Nodup
  stamped : ∀ i, stamp[i]? = some tick ↔ i ∈ found ++ queue

/-- Every link leads to a node of the graph. -/
def Linked (links : Nat → List Nat) (total : Nat) : Prop := ∀ i, ∀ parent ∈ links i, parent < total

theorem Searching.step (linked : Linked links stamp.length)
    (searching : Searching links tick start (node :: queue) stamp found) :
    Searching links tick start ((links node).foldl (stampNode tick) (queue, stamp)).1
        ((links node).foldl (stampNode tick) (queue, stamp)).2 (found ++ [node]) ∧
      ((links node).foldl (stampNode tick) (queue, stamp)).2.length = stamp.length ∧
      ∀ i : Nat, ((links node).foldl (stampNode tick) (queue, stamp)).2[i]? = some tick ∨
        ((links node).foldl (stampNode tick) (queue, stamp)).2[i]? = stamp[i]? := by
  obtain ⟨new, pushed, nodup, fresh, covered, length, marks, kept⟩ :=
    @foldl_stampNode tick queue stamp _ (links node) (linked node) searching.stamped
  refine ⟨⟨?_, ?_, ?_⟩, length, kept⟩
  · rw [reverse_append]
    have visited : node ∉ found := by
      have := searching.nodup
      grind
    refine searching.walking.grow (by simpa using visited) (by grind) (fun other mem => ?_)
      fun child edge => ?_
    · have := fresh other
      grind
    · have := covered child edge
      grind
  · rw [pushed]
    have apart : ∀ i ∈ new, i ∉ found ++ node :: queue := fun i mem => (fresh i mem).2
    rw [append_assoc, singleton_append, ← cons_append, ← append_assoc]
    exact searching.nodup.append nodup (fun i mem mem' => apart i mem' mem)
  · intro i
    grind

/-- Stamps are only overwritten with the number of the query. -/
def Overwrites (tick : Nat) (stamp after : List Nat) : Prop :=
  after.length = stamp.length ∧ ∀ i : Nat, after[i]? = some tick ∨ after[i]? = stamp[i]?

theorem Overwrites.refl (tick : Nat) (stamp : List Nat) : Overwrites tick stamp stamp :=
  ⟨rfl, fun _ => .inr rfl⟩

theorem Overwrites.trans {middle after : List Nat} (first : Overwrites tick stamp middle)
    (second : Overwrites tick middle after) : Overwrites tick stamp after := by
  refine ⟨second.1.trans first.1, fun i => ?_⟩
  rcases second.2 i with marked | same
  · exact .inl marked
  · rw [same]
    exact first.2 i

theorem Overwrites.set (tick : Nat) (stamp : List Nat) (node : Nat) :
    Overwrites tick stamp (stamp.set node tick) := by
  refine ⟨length_set, fun i => ?_⟩
  grind

theorem findAncestors_overwrites (linked : Linked links stamp.length) (budget : Nat)
    (searching : Searching links tick start queue stamp found) :
    Overwrites tick stamp (findAncestors links tick budget queue stamp found).2 := by
  induction budget generalizing queue stamp found with
  | zero =>
    cases queue with
    | nil => exact .refl _ _
    | cons node queue => exact .refl _ _
  | succ budget ih =>
    cases queue with
    | nil => exact .refl _ _
    | cons node queue =>
      obtain ⟨searching, length, kept⟩ := searching.step linked
      exact Overwrites.trans ⟨length, kept⟩ (ih (by rwa [length]) searching)

/-- Within the limit, the search ends with nothing left in the queue. -/
theorem findAncestors_searched (linked : Linked links stamp.length) (budget : Nat)
    (searching : Searching links tick start queue stamp found)
    (within : Within links (found.length + budget) start) :
    ∃ all after, findAncestors links tick budget queue stamp found = (.ok all, after) ∧
      Searching links tick start [] after all := by
  induction budget generalizing queue stamp found with
  | zero =>
    cases queue with
    | nil => exact ⟨found, stamp, rfl, searching⟩
    | cons node queue =>
      -- One more node than the limit has been reached.
      have more := within (found ++ [node]) (searching.nodup.sublist (by simp)) fun v mem =>
        searching.walking.path (by simp at mem ⊢; tauto)
      simp at more
  | succ budget ih =>
    cases queue with
    | nil => exact ⟨found, stamp, rfl, searching⟩
    | cons node queue =>
      obtain ⟨searching, length, kept⟩ := searching.step linked
      refine ih (by rwa [length]) searching ?_
      rw [length_append, length_singleton, add_assoc, add_comm 1]
      exact within

section Fresh

variable (inside : start < stamp.length) (fresh : ∀ i : Nat, stamp[i]? ≠ some tick)
include inside fresh

theorem searching_start : Searching links tick start [start] (stamp.set start tick) [] := by
  refine ⟨⟨by simp, by simp, fun node mem => ?_, by simp, by simp⟩, by simp, fun i => ?_⟩
  · rw [reverse_nil, nil_append, mem_singleton] at mem
    exact ⟨start, by simp, mem ▸ .refl⟩
  · rw [getElem?_set]
    grind

theorem stampAncestors_overwrites (linked : Linked links stamp.length) :
    Overwrites tick stamp (stampAncestors links start stamp tick).2 := by
  have linked' : Linked links (stamp.set start tick).length := by rwa [length_set]
  exact (Overwrites.set tick stamp start).trans
    (findAncestors_overwrites linked' maxAncestors (searching_start inside fresh))

theorem stampAncestors_spec (linked : Linked links stamp.length)
    (within : Within links maxAncestors start) :
    ∃ found after, stampAncestors links start stamp tick = (.ok found, after) ∧ found.Nodup ∧
      (∀ v, v ∈ found ↔ Ancestor links start v) ∧ ∀ v, after[v]? = some tick ↔ Ancestor links start v := by
  have linked' : Linked links (stamp.set start tick).length := by rwa [length_set]
  have within' : Within links (([] : List Nat).length + maxAncestors) start := by
    rwa [length_nil]
  obtain ⟨found, after, done, searching⟩ :=
    findAncestors_searched linked' maxAncestors (searching_start inside fresh) within'
  have members (v : Nat) : v ∈ found ↔ Ancestor links start v := by
    rw [← mem_reverse, searching.walking.mem_iff (by simp) v]
    simp [Reaches, Ancestor]
  refine ⟨found, after, done, by simpa using searching.nodup, members, fun v => ?_⟩
  rw [searching.stamped, append_nil, members]

end Fresh

theorem foldl_set (nodes : List Nat) (inside : ∀ node ∈ nodes, node < stamp.length) :
    Overwrites tick stamp (nodes.foldl (fun stamp node => stamp.set node tick) stamp) ∧
      ∀ i : Nat, (nodes.foldl (fun stamp node => stamp.set node tick) stamp)[i]? = some tick ↔
        i ∈ nodes ∨ stamp[i]? = some tick := by
  induction nodes generalizing stamp with
  | nil => exact ⟨.refl _ _, by simp⟩
  | cons node nodes ih =>
    have inside' : ∀ other ∈ nodes, other < (stamp.set node tick).length := by
      intro other mem
      rw [length_set]
      exact inside other (by simp [mem])
    obtain ⟨overwrites, marks⟩ := ih inside'
    refine ⟨(Overwrites.set tick stamp node).trans overwrites, fun i => ?_⟩
    grind

theorem stampParents_spec (linked : Linked links stamp.length) (common : List Nat) :
    Overwrites tick stamp (stampParents links tick common stamp) ∧
      ∀ i : Nat, (stampParents links tick common stamp)[i]? = some tick ↔
        (∃ child ∈ common, i ∈ links child) ∨ stamp[i]? = some tick := by
  have inside : ∀ node ∈ common.flatMap links, node < stamp.length := by
    intro node mem
    obtain ⟨child, -, edge⟩ := mem_flatMap.1 mem
    exact linked child node edge
  obtain ⟨overwrites, marks⟩ := @foldl_set tick stamp _ inside
  refine ⟨overwrites, fun i => ?_⟩
  unfold stampParents
  rw [marks, mem_flatMap]

theorem unstamped_pairwise (nodup : common.Nodup) :
    (unstamped tick common stamp).Pairwise (· < ·) := by
  have sorted := pairwise_insertionSort (· ≤ ·) (common.filter fun v => stamp[v]? ≠ some tick)
  have distinct := (perm_insertionSort (· ≤ ·) (common.filter fun v => stamp[v]? ≠ some tick)).nodup_iff.2
    (nodup.filter _)
  exact (sorted.and distinct).imp fun both => lt_of_le_of_ne both.1 both.2

theorem mem_unstamped {v : Nat} :
    v ∈ unstamped tick common stamp ↔ v ∈ common ∧ stamp[v]? ≠ some tick := by
  rw [unstamped, mem_insertionSort, mem_filter, decide_eq_true_eq]

end Stamping

section Scratch

variable {links : Nat → List Nat} {total a b : Nat} {scratch : Scratch}

/-- Three lists of stamps, none above the number of the last query. -/
structure Scratch.Fits (total : Nat) (scratch : Scratch) : Prop where
  left : scratch.left.length = total
  right : scratch.right.length = total
  dominated : scratch.dominated.length = total
  old : ∀ stamp ∈ [scratch.left, scratch.right, scratch.dominated], ∀ value ∈ stamp, value ≤ scratch.tick

open Scratch

theorem Scratch.fits_fresh (total : Nat) : (fresh total).Fits total := by
  refine ⟨by simp [fresh], by simp [fresh], by simp [fresh], ?_⟩
  simp +contextual [fresh]

theorem Overwrites.le {tick : Nat} {stamp after : List Nat} (overwrites : Overwrites (tick + 1) stamp after)
    (old : ∀ value ∈ stamp, value ≤ tick) : ∀ value ∈ after, value ≤ tick + 1 := by
  intro value mem
  obtain ⟨i, found⟩ := mem_iff_getElem?.1 mem
  rcases overwrites.2 i with marked | same
  · rw [found] at marked
    cases marked
    exact le_refl _
  · rw [found] at same
    exact le_succ_of_le (old value (mem_iff_getElem?.2 ⟨i, same.symm⟩))

theorem fresh_of_le {tick : Nat} {stamp : List Nat} (old : ∀ value ∈ stamp, value ≤ tick) (i : Nat) :
    stamp[i]? ≠ some (tick + 1) := by
  intro found
  have := old _ (mem_of_getElem? found)
  omega

/-- What one query has to know of the scratch space. -/
structure Scratch.Ready (total : Nat) (scratch : Scratch) : Prop where
  fits : scratch.Fits total
  counts : scratch.tick + 1 < 2 ^ 32

theorem Scratch.Ready.number (ready : scratch.Ready total) :
    (scratch.tick + 1) % 2 ^ 32 = scratch.tick + 1 :=
  mod_eq_of_lt ready.counts

theorem Scratch.Fits.le_tick (fits : scratch.Fits total) : (∀ value ∈ scratch.left, value ≤ scratch.tick) ∧
    (∀ value ∈ scratch.right, value ≤ scratch.tick) ∧ ∀ value ∈ scratch.dominated, value ≤ scratch.tick :=
  ⟨fits.old _ (by simp), fits.old _ (by simp), fits.old _ (by simp)⟩

/-- A query, whether it succeeds or not, leaves the scratch space ready for the next. -/
theorem findBases_fits (linked : Linked links total) (ready : scratch.Ready total) (insideA : a < total)
    (insideB : b < total) :
    (findBases links a b scratch).2.Fits total ∧
    (findBases links a b scratch).2.tick = scratch.tick + 1 := by
  have fits := ready.fits
  obtain ⟨oldLeft, oldRight, oldDominated⟩ := fits.le_tick
  have left := @stampAncestors_overwrites links (scratch.tick + 1) a scratch.left (by rwa [fits.left])
    (fresh_of_le oldLeft) (by rwa [fits.left])
  have right := @stampAncestors_overwrites links (scratch.tick + 1) b scratch.right (by rwa [fits.right])
    (fresh_of_le oldRight) (by rwa [fits.right])
  have le := left.le oldLeft
  have le' := right.le oldRight
  have lengths := left.1.trans fits.left
  have lengths' := right.1.trans fits.right
  unfold findBases
  rw [ready.number]
  dsimp only
  generalize stampAncestors links a scratch.left (scratch.tick + 1) = first at le lengths ⊢
  generalize stampAncestors links b scratch.right (scratch.tick + 1) = second at le' lengths' ⊢
  obtain ⟨e | found, after⟩ := first
  · refine ⟨⟨lengths, fits.right, fits.dominated, ?_⟩, rfl⟩
    simp only [mem_cons, not_mem_nil, or_false, forall_eq_or_imp, forall_eq]
    exact ⟨le, fun v mem => le_succ_of_le (oldRight v mem), fun v mem => le_succ_of_le (oldDominated v mem)⟩
  · obtain ⟨e | found', after'⟩ := second
    · refine ⟨⟨lengths, lengths', fits.dominated, ?_⟩, rfl⟩
      simp only [mem_cons, not_mem_nil, or_false, forall_eq_or_imp, forall_eq]
      exact ⟨le, le', fun v mem => le_succ_of_le (oldDominated v mem)⟩
    · have dominated := (@stampParents_spec links (scratch.tick + 1) scratch.dominated
        (by rwa [fits.dominated])
        (found.filter fun v => after'[v]? = some (scratch.tick + 1))).1
      refine ⟨⟨lengths, lengths', dominated.1.trans fits.dominated, ?_⟩, rfl⟩
      simp only [mem_cons, not_mem_nil, or_false, forall_eq_or_imp, forall_eq]
      exact ⟨le, le', dominated.le oldDominated⟩

/-- Within the limits, a query gives the best common ancestors, whatever stamps are left from
earlier ones. -/
theorem findBases_spec (acyclic : Acyclic links) (linked : Linked links total) (ready : scratch.Ready total)
    (insideA : a < total) (insideB : b < total) (withinA : Within links maxAncestors a)
    (withinB : Within links maxAncestors b) :
    ∃ bases, (findBases links a b scratch).1 = .ok bases ∧ bases.Pairwise (· < ·) ∧
      ∀ v, v ∈ bases ↔ Best links a b v := by
  have fits := ready.fits
  obtain ⟨oldLeft, oldRight, oldDominated⟩ := fits.le_tick
  obtain ⟨found, left, searched, nodup, members, -⟩ :=
    @stampAncestors_spec links (scratch.tick + 1) a scratch.left
    (by rwa [fits.left]) (fresh_of_le oldLeft) (by rwa [fits.left]) withinA
  obtain ⟨found', right, searched', -, -, marks⟩ :=
    @stampAncestors_spec links (scratch.tick + 1) b scratch.right
    (by rwa [fits.right]) (fresh_of_le oldRight) (by rwa [fits.right]) withinB
  have common (v : Nat) : v ∈ (found.filter fun v => right[v]? = some (scratch.tick + 1)) ↔
    Common links a b v := by
    rw [mem_filter, decide_eq_true_eq, members, marks]
    rfl
  have dominated := (@stampParents_spec links (scratch.tick + 1) scratch.dominated (by rwa [fits.dominated])
    (found.filter fun v => right[v]? = some (scratch.tick + 1))).2
  unfold findBases
  rw [ready.number]
  dsimp only
  rw [searched]
  rw [searched']
  refine ⟨_, rfl, unstamped_pairwise (nodup.filter _), fun v => ?_⟩
  rw [mem_unstamped, common, best_iff acyclic]
  refine and_congr_right fun _ => ?_
  rw [ne_eq, dominated, or_iff_left (fresh_of_le oldDominated v)]
  simp [common]

def afterQueries (links : Nat → List Nat) (total : Nat) (queries : List (Nat × Nat)) : Scratch :=
  queries.foldl (fun scratch query => (findBases links query.1 query.2 scratch).2) (.fresh total)

theorem afterQueries_fits (linked : Linked links total)
    (inside : ∀ query ∈ queries, query.1 < total ∧ query.2 < total) (few : queries.length < 2 ^ 32) :
    (afterQueries links total queries).Fits total ∧
    (afterQueries links total queries).tick = queries.length := by
  induction queries using List.reverseRecOn with
  | nil => exact ⟨fits_fresh total, rfl⟩
  | append_singleton queries query ih =>
    rw [length_append, length_singleton] at few
    obtain ⟨fits, tick⟩ := ih (fun other mem => inside other (by simp [mem])) (by omega)
    have here := inside query (by simp)
    obtain ⟨fits', tick'⟩ := findBases_fits linked ⟨fits, by omega⟩ here.1 here.2
    rw [afterQueries, foldl_append]
    refine ⟨fits', ?_⟩
    rw [length_append, ← tick]
    exact tick'

end Scratch

namespace Graph

variable (graph : Graph)

def addr : List Address := nodesOf graph.bodies graph.released

def find (a : Address) : Option Nat :=
  (graph.bodies.keys.idxOf? a).or ((graph.released.keys.idxOf? a).map (· + graph.bodies.keys.length))

def links (node : Nat) : List Nat := ((graph.addr[node]?.map graph.parents).getD []).filterMap graph.find

def mergeBases (a b : Nat) (scratch : Scratch) : Except Error (List Nat) × Scratch :=
  findBases graph.links a b scratch

def scratchAfter (queries : List (Nat × Nat)) : Scratch :=
  afterQueries graph.links graph.addr.length queries

def nameOf (node : Nat) : Address := graph.addr[node]?.getD (plainAddress 0)

variable {graph} {view : HistoryView}

theorem Built.addr_nodup (built : graph.Built view) : graph.addr.Nodup := by
  rw [addr, built.bodies, built.released]
  refine List.Nodup.append ExtTreeMap.nodup_keys ExtTreeMap.nodup_keys fun a stored released => ?_
  rw [ExtTreeMap.mem_keys] at stored released
  obtain ⟨entry, found⟩ := OrderedMap.mem_iff_exists.1 released
  obtain ⟨listed, rfl⟩ := (mem_released_iff built.distinct).1 found
  exact built.apart entry listed stored

theorem find_eq_some (found : graph.find a = some node) : graph.addr[node]? = some a := by
  unfold find at found
  unfold addr nodesOf
  rw [or_eq_some_iff] at found
  rcases found with found | ⟨-, found⟩
  · obtain ⟨lt, same, -⟩ := idxOf?_eq_some_iff.1 found
    rw [getElem?_append_left lt, getElem?_eq_getElem lt, same]
  · obtain ⟨place, listed, rfl⟩ := map_eq_some_iff.1 found
    obtain ⟨lt, same, -⟩ := idxOf?_eq_some_iff.1 listed
    rw [getElem?_append_right (by omega), Nat.add_sub_cancel, getElem?_eq_getElem lt, same]

theorem find_isSome (mem : a ∈ graph.addr) : (graph.find a).isSome = true := by
  unfold find
  rw [addr, nodesOf, mem_append] at mem
  rw [isSome_or, isSome_map, Bool.or_eq_true, isSome_idxOf?, isSome_idxOf?]
  exact mem

variable {child parent : Address}

theorem Built.mem_addr (built : graph.Built view) (edge : parent ∈ graph.parents child) :
    parent ∈ graph.addr := by
  have named : parent ∈ named view.bodies view.released := by
    rw [mem_named built.distinct built.apart]
    refine .inl ⟨child, ?_⟩
    rw [HistoryView.parents, ← built.bodies, ← built.released]
    exact edge
  rw [addr, nodesOf, built.bodies, built.released, mem_append, ExtTreeMap.mem_keys, ExtTreeMap.mem_keys]
  exact built.known parent named

theorem nameOf_eq (isNode : graph.addr[node]? = some a) : graph.nameOf node = a := by
  rw [nameOf, isNode]
  rfl

theorem Built.numbering (built : graph.Built view) :
    Numbering graph.parents graph.links graph.nameOf (· < graph.addr.length) := by
  constructor
  · intro i inside
    have isNode := getElem?_eq_getElem inside
    rw [nameOf_eq isNode, links, isNode, map_some, getD_some]
    have known : ∀ parent ∈ graph.parents graph.addr[i], parent ∈ graph.addr := fun parent edge =>
      built.mem_addr edge
    generalize graph.parents graph.addr[i] = parents at known
    induction parents with
    | nil => rfl
    | cons parent parents ih =>
      obtain ⟨node, found⟩ := isSome_iff_exists.1 (find_isSome (known parent (by simp)))
      rw [filterMap_cons_some found, map_cons, nameOf_eq (find_eq_some found),
        ← ih fun other mem => known other (by simp [mem])]
  · intro i inside j edge
    obtain ⟨parent, -, found⟩ := mem_filterMap.1 edge
    exact (List.getElem?_eq_some_iff.1 (find_eq_some found)).1
  · intro i j inside inside' same
    rw [nameOf_eq (getElem?_eq_getElem inside), nameOf_eq (getElem?_eq_getElem inside')] at same
    exact (built.addr_nodup.getElem_inj_iff).1 same

theorem linked (graph : Graph) : Linked graph.links graph.addr.length := by
  intro i parent edge
  obtain ⟨a, -, found⟩ := mem_filterMap.1 edge
  exact (List.getElem?_eq_some_iff.1 (find_eq_some found)).1

theorem mem_addr_of_edge (edge : parent ∈ graph.parents child) : child ∈ graph.addr := by
  rw [addr, mem_nodesOf]
  rw [parents, parentsIn] at edge
  split at edge
  · rename_i found
    exact .inl (of_getElem?_eq_some found)
  · cases found : graph.released[child]? with
    | none => simp [found] at edge
    | some entry => exact .inr (of_getElem?_eq_some found)

theorem Built.acyclic (built : graph.Built view) : Acyclic graph.parents := by
  intro child parent edge path
  have heights := built.heights
  rw [← built.bodies, ← built.released] at heights
  obtain ⟨sound, valued⟩ := DepthFirst.sound_of_searchAll heights
  obtain ⟨height, value⟩ := isSome_iff_exists.1 (valued child (mem_addr_of_edge edge))
  have grounded := (sound.solved child height value).2.2
  refine DepthFirst.not_rel_self_of_acc grounded.transGen ?_
  exact Relation.TransGen.tail' (Relation.reflTransGen_swap.1 path) edge

theorem Built.acyclic_links (built : graph.Built view) : Acyclic graph.links := by
  intro i j edge path
  have inside : i < graph.addr.length := by
    by_contra outside
    rw [links, getElem?_eq_none (by omega)] at edge
    contradiction
  have inside' := graph.linked i j edge
  refine built.acyclic (graph.nameOf i) (graph.nameOf j) ?_
    ((built.numbering.ancestor_iff inside' inside).2 path)
  rw [built.numbering.linked i inside]
  exact mem_map_of_mem edge

theorem Built.ancestor_mem (built : graph.Built view) {v : Address} (known : a ∈ graph.addr)
    (path : Ancestor graph.parents a v) : v ∈ graph.addr := by
  induction path with
  | refl => exact known
  | tail _ edge => exact built.mem_addr edge

/-- Within the limits, the planner finds the best common ancestors of two nodes, after any queries. -/
theorem Built.mergeBases_spec (built : graph.Built view)
    (inside : ∀ query ∈ queries, query.1 < graph.addr.length ∧ query.2 < graph.addr.length)
    (few : queries.length + 1 < 2 ^ 32) {a b : Nat} {left right : Address}
    (isLeft : graph.addr[a]? = some left)
    (isRight : graph.addr[b]? = some right) (withinLeft : Within graph.parents maxAncestors left)
    (withinRight : Within graph.parents maxAncestors right) :
    ∃ bases, (graph.mergeBases a b (graph.scratchAfter queries)).1 = .ok bases ∧ bases.Pairwise (· < ·) ∧
      ∀ v, v ∈ bases ↔ ∃ c, graph.addr[v]? = some c ∧ Best graph.parents left right c := by
  have insideA := (List.getElem?_eq_some_iff.1 isLeft).1
  have insideB := (List.getElem?_eq_some_iff.1 isRight).1
  have numbering := built.numbering
  rw [← nameOf_eq isLeft] at withinLeft ⊢
  rw [← nameOf_eq isRight] at withinRight ⊢
  obtain ⟨fits, tick⟩ := afterQueries_fits graph.linked inside (by omega)
  obtain ⟨bases, found, sorted, members⟩ := findBases_spec built.acyclic_links graph.linked
    ⟨fits, by omega⟩ insideA insideB (numbering.within insideA withinLeft)
    (numbering.within insideB withinRight)
  refine ⟨bases, found, sorted, fun v => ?_⟩
  rw [members]
  constructor
  · intro best
    have here := numbering.stays insideA best.common.1
    refine ⟨graph.nameOf v, ?_, (numbering.best_iff insideA insideB here).2 best⟩
    rw [nameOf_eq (getElem?_eq_getElem here)]
    exact getElem?_eq_getElem here
  · rintro ⟨c, isNode, best⟩
    rw [← nameOf_eq isNode] at best
    exact (numbering.best_iff insideA insideB (List.getElem?_eq_some_iff.1 isNode).1).1 best

end Graph

end Dynodoc.Horizon
