import Dynodoc.Lib.Loop
import Dynodoc.Lib.OrderedMap

/-! Depth-first search with a stack of frames, each a node and the number of its children
that have been looked at. A node gets a value from those of its children when it is left. -/
namespace DepthFirst
open Std (ExtTreeMap)
open Loop OrderedMap Option Prod
open List hiding getElem?_insert

variable {turns edge : Nat}

variable {ν β : Type}

variable {node : ν} {frames : List (ν × Nat)} {nodes : List ν} {value : ν → List β → β}
  {children : ν → List ν}

section Turns

variable (children : ν → List ν)

/-- The turns that the frames and the nodes not yet entered can still take. -/
def turnsLeft (nodes : List ν) (frames : List (ν × Nat)) (entered : ν → Bool) : Nat :=
  (frames.map fun (node, edge) => (children node).length - edge + 1).sum +
    ((nodes.filter fun node => !entered node).map fun node => (children node).length + 2).sum

variable {children} {entered entered' : ν → Bool} {child : ν}

theorem turnsLeft_next (nodes : List ν) (frames : List (ν × Nat)) (entered : ν → Bool)
    (more : (children node)[edge]? = some child) :
    turnsLeft children nodes ((node, edge + 1) :: frames) entered <
      turnsLeft children nodes ((node, edge) :: frames) entered := by
  obtain ⟨below, -⟩ := List.getElem?_eq_some_iff.1 more
  simp only [turnsLeft, map_cons, sum_cons]
  omega

theorem turnsLeft_enter (frames : List (ν × Nat)) (more : (children node)[edge]? = some child)
    (listed : child ∈ nodes) (fresh : entered child = false) (marked : entered' child = true)
    (kept : ∀ other, entered other = true → entered' other = true) :
    turnsLeft children nodes ((child, 0) :: (node, edge + 1) :: frames) entered' <
      turnsLeft children nodes ((node, edge) :: frames) entered := by
  obtain ⟨below, -⟩ := List.getElem?_eq_some_iff.1 more
  have used := sum_filter_add_le (p := fun node => !entered node) (q := fun node => !entered' node)
    (fun node => (children node).length + 2) listed (by simp [marked]) (by simp [fresh])
    (fun other => by simpa using fun unmarked => mt (kept other) (by simp [unmarked]))
  simp only [turnsLeft, map_cons, sum_cons] at used ⊢
  omega

theorem turnsLeft_leave (nodes : List ν) (frames : List (ν × Nat)) (node : ν) (edge : Nat)
    (kept : ∀ other, entered other = true → entered' other = true) :
    turnsLeft children nodes frames entered' <
      turnsLeft children nodes ((node, edge) :: frames) entered := by
  have fewer := sum_filter_le (p := fun node => !entered node) (q := fun node => !entered' node)
    (fun node => (children node).length + 2) (l := nodes)
    (fun other => by simpa using fun unmarked => mt (kept other) (by simp [unmarked]))
  simp only [turnsLeft, map_cons, sum_cons]
  omega

end Turns

section Search

variable [Ord ν] [Std.TransOrd ν] [Std.LawfulEqOrd ν] [DecidableEq ν]

inductive Mark (β : Type) where
  | entered
  | done (value : β)

def Mark.value? : Mark β → Option β
  | entered => none
  | done value => some value

abbrev Marks (ν β : Type) [Ord ν] := ExtTreeMap ν (Mark β)

def valueAt (marks : Marks ν β) (node : ν) : Option β := marks[node]?.bind Mark.value?

variable (children : ν → List ν) (value : ν → List β → β)

/-- Nothing when a child is found that has been entered and not yet left. -/
def search : Nat → List (ν × Nat) → Marks ν β → Option (Marks ν β)
  | _, [], marks => some marks
  | 0, _ :: _, _ => none
  | turns + 1, (node, edge) :: frames, marks =>
    match (children node)[edge]? with
    | some child =>
      match marks[child]? with
      | none => search turns ((child, 0) :: (node, edge + 1) :: frames) (marks.insert child .entered)
      | some .entered => none
      | some (.done _) => search turns ((node, edge + 1) :: frames) marks
    | none =>
      search turns frames
        (marks.insert node (.done (value node ((children node).filterMap (valueAt marks)))))

def searchFrom (turns : Nat) (marks : Marks ν β) (start : ν) : Option (Marks ν β) :=
  match valueAt marks start with
  | some _ => some marks
  | none => search children value turns [(start, 0)] (marks.insert start .entered)

def searchAll (turns : Nat) (nodes : List ν) : Option (Marks ν β) :=
  nodes.foldlM (searchFrom children value turns) ∅

end Search

section Soundness

variable [Ord ν] [Std.TransOrd ν] {marks marks' : Marks ν β} {child : ν}

/-- The nodes that have a value, and the values, are those that the children determine. -/
def Solved (children : ν → List ν) (value : ν → List β → β) (marks : Marks ν β) : Prop :=
  ∀ node v, valueAt marks node = some v →
    (∀ child ∈ children node, (valueAt marks child).isSome) ∧
    v = value node ((children node).filterMap (valueAt marks)) ∧
    Acc (fun child parent => child ∈ children parent) node

/-- What the frames say of the children looked at so far: they have values, but for the one
whose frame is next above. -/
def Covered (children : ν → List ν) (marks : Marks ν β) : Option ν → List (ν × Nat) → Prop
  | _, [] => True
  | above, (node, edge) :: frames =>
    (∀ child ∈ (children node).take edge, (valueAt marks child).isSome ∨ above = some child) ∧
      Covered children marks (some node) frames

theorem Covered.mono {above : Option ν} (covered : Covered children marks above frames)
    (kept : ∀ node, (valueAt marks node).isSome → (valueAt marks' node).isSome) :
    Covered children marks' above frames := by
  induction frames generalizing above with
  | nil => trivial
  | cons frame frames ih =>
    exact ⟨fun child mem => (covered.1 child mem).imp_left (kept child), ih covered.2⟩

/-- The node next above may count as having a value once it has one. -/
theorem Covered.left
    (covered : Covered children marks (some node) frames) (known : (valueAt marks node).isSome) :
    Covered children marks none frames := by
  cases frames with
  | nil => trivial
  | cons frame frames =>
    refine ⟨fun child mem => .inl ?_, covered.2⟩
    rcases covered.1 child mem with known' | same
    · exact known'
    · cases same
      exact known

/-- The nodes that have been entered and not yet left are those on the path to the node at hand. -/
structure OnPath (children : ν → List ν) (frames : List (ν × Nat)) (marks : Marks ν β) : Prop where
  entered : ∀ node, marks[node]? = some .entered ↔ node ∈ frames.map fst
  distinct : (frames.map fst).Nodup
  chain : (frames.map fst).IsChain fun child parent => child ∈ children parent

structure Underway (children : ν → List ν) (value : ν → List β → β) (frames : List (ν × Nat))
    (marks : Marks ν β) : Prop extends OnPath children frames marks where
  solved : Solved children value marks
  covered : Covered children marks none frames

theorem valueAt_of_entered (entered : marks[node]? = some .entered) :
    valueAt marks node = none := by
  rw [valueAt, entered]
  rfl

theorem valueAt_of_absent (absent : marks[node]? = none) : valueAt marks node = none := by
  rw [valueAt, absent]
  rfl

theorem Underway.next (sound : Underway children value ((node, edge) :: frames) marks)
    (more : (children node)[edge]? = some child) (known : (valueAt marks child).isSome) :
    Underway children value ((node, edge + 1) :: frames) marks := by
  refine { sound with covered := ⟨fun other mem => ?_, sound.covered.2⟩ }
  rw [take_add_one, more] at mem
  rcases mem_append.1 mem with mem | mem
  · exact sound.covered.1 other mem
  · exact .inl (mem_singleton.1 mem ▸ known)

def Extends (marks marks' : Marks ν β) : Prop :=
  ∀ node v, valueAt marks node = some v → valueAt marks' node = some v

theorem sound_empty : Underway children value [] (∅ : Marks ν β) where
  entered := by simp
  distinct := nodup_nil
  chain := .nil
  solved node v known := by simp [valueAt] at known
  covered := trivial

/-- Values that are computed in another way are the same, if they are the same for each node
once those of its children are. -/
theorem valueAt_eq_of_solved {value' : ν → List β → β}
    (solved : Solved children value marks) (solved' : Solved children value' marks')
    (agree : ∀ node v, valueAt marks node = some v →
      value' node ((children node).filterMap (valueAt marks)) = v)
    (known : (valueAt marks node).isSome) (known' : (valueAt marks' node).isSome) :
    valueAt marks' node = valueAt marks node := by
  obtain ⟨v, found⟩ := isSome_iff_exists.1 known
  have acc := (solved node v found).2.2
  induction acc generalizing v with
  | intro node _ ih =>
    obtain ⟨v', found'⟩ := isSome_iff_exists.1 known'
    obtain ⟨below, -, -⟩ := solved node v found
    obtain ⟨below', same, -⟩ := solved' node v' found'
    have children : (children node).filterMap (valueAt marks') =
        (children node).filterMap (valueAt marks) := by
      refine filterMap_congr fun child edge => ?_
      obtain ⟨w, here⟩ := isSome_iff_exists.1 (below child edge)
      exact ih child edge (below child edge) (below' child edge) w here
    rw [found, found', same, children, agree node v found]

variable [Std.LawfulEqOrd ν] [DecidableEq ν]

theorem valueAt_insert_entered (fresh : valueAt marks node = none) :
    valueAt (marks.insert node .entered) = valueAt marks := by
  funext other
  by_cases same : other = node
  · rw [same, fresh, valueAt, getElem?_insert, if_pos rfl]
    rfl
  · rw [valueAt, getElem?_insert, if_neg same]
    rfl

theorem valueAt_insert_done (node other : ν) (v : β) :
    valueAt (marks.insert node (.done v)) other =
      if other = node then some v else valueAt marks other := by
  rw [valueAt, getElem?_insert]
  by_cases same : other = node
  · rw [if_pos same, if_pos same]
    rfl
  · rw [if_neg same, if_neg same]
    rfl

theorem filterMap_valueAt_done (v : β)
    (known : ∀ child ∈ nodes, (valueAt marks child).isSome) (fresh : valueAt marks node = none) :
    nodes.filterMap (valueAt (marks.insert node (.done v))) = nodes.filterMap (valueAt marks) := by
  refine filterMap_congr fun child mem => ?_
  rw [valueAt_insert_done, if_neg]
  rintro rfl
  have some := known child mem
  rw [fresh] at some
  contradiction

theorem Solved.done (solved : Solved children value marks)
    (known : ∀ child ∈ children node, (valueAt marks child).isSome)
    (fresh : valueAt marks node = none) : Solved children value (marks.insert node
      (.done (value node ((children node).filterMap (valueAt marks))))) := by
  intro other v found
  rw [valueAt_insert_done] at found
  have still (child : ν) (some : (valueAt marks child).isSome) :
      (valueAt (marks.insert node
        (.done (value node ((children node).filterMap (valueAt marks))))) child).isSome := by
    rw [valueAt_insert_done]
    split
    · rfl
    · exact some
  split at found
  · rename_i same
    subst same
    cases found
    rw [filterMap_valueAt_done _ known fresh]
    refine ⟨fun child mem => still child (known child mem), rfl, ⟨_, fun child mem => ?_⟩⟩
    obtain ⟨w, found⟩ := isSome_iff_exists.1 (known child mem)
    exact (solved child w found).2.2
  · obtain ⟨all, eq, acc⟩ := solved other v found
    rw [filterMap_valueAt_done _ all fresh]
    exact ⟨fun child mem => still child (all child mem), eq, acc⟩

theorem OnPath.push {below : List (ν × Nat)} (path : OnPath children frames marks)
    (same : below.map fst = frames.map fst) (outside : child ∉ frames.map fst)
    (chain : (child :: frames.map fst).IsChain fun child parent => child ∈ children parent) :
    OnPath children ((child, 0) :: below) (marks.insert child .entered) := by
  rw [← same] at outside chain
  refine ⟨fun other => ?_, nodup_cons.2 ⟨outside, same ▸ path.distinct⟩, chain⟩
  rw [getElem?_insert]
  by_cases here : other = child
  · simp [here]
  · rw [if_neg here, path.entered, ← same]
    simp [here]

theorem OnPath.enter (path : OnPath children ((node, edge) :: frames) marks)
    (more : (children node)[edge]? = some child) (absent : marks[child]? = none) :
    OnPath children ((child, 0) :: (node, edge + 1) :: frames) (marks.insert child .entered) := by
  refine path.push rfl ?_ (isChain_cons_cons.2 ⟨mem_of_getElem? more, path.chain⟩)
  rw [← path.entered, absent]
  simp

theorem OnPath.leave (path : OnPath children ((node, edge) :: frames) marks) (v : β) :
    OnPath children frames (marks.insert node (.done v)) := by
  obtain ⟨outside, distinct⟩ := nodup_cons.1 path.distinct
  refine ⟨fun other => ?_, distinct, List.IsChain.of_cons path.chain⟩
  rw [getElem?_insert]
  by_cases here : other = node
  · subst here
    simpa using outside
  · rw [if_neg here, path.entered]
    simp [here]

theorem Underway.enter (sound : Underway children value ((node, edge) :: frames) marks)
    (more : (children node)[edge]? = some child) (absent : marks[child]? = none) :
    Underway children value ((child, 0) :: (node, edge + 1) :: frames)
      (marks.insert child .entered) := by
  have same := valueAt_insert_entered (valueAt_of_absent absent)
  refine { sound.toOnPath.enter more absent with solved := ?_, covered := ⟨by simp, ?_, ?_⟩ }
  · rw [Solved, same]
    exact sound.solved
  · intro other mem
    rw [take_add_one, more] at mem
    rcases mem_append.1 mem with mem | mem
    · rcases sound.covered.1 other mem with known | above
      · exact .inl (same ▸ known)
      · contradiction
    · exact .inr (congrArg some (mem_singleton.1 mem).symm)
  · exact sound.covered.2.mono fun other known => same ▸ known

theorem Underway.leave (sound : Underway children value ((node, edge) :: frames) marks)
    (last : (children node)[edge]? = none) :
    Underway children value frames (marks.insert node
      (.done (value node ((children node).filterMap (valueAt marks))))) := by
  have isEntered : marks[node]? = some .entered := (sound.entered node).2 (by simp)
  have fresh := valueAt_of_entered isEntered
  have known (child : ν) (mem : child ∈ children node) : (valueAt marks child).isSome := by
    rw [← take_of_length_le (List.getElem?_eq_none_iff.1 last)] at mem
    rcases sound.covered.1 child mem with known | above
    · exact known
    · contradiction
  refine { sound.toOnPath.leave _ with solved := sound.solved.done known fresh, covered := ?_ }
  refine (sound.covered.2.mono fun other some => ?_).left ?_
  · rw [valueAt_insert_done]
    split
    · rfl
    · exact some
  · rw [valueAt_insert_done, if_pos rfl]
    rfl

theorem sound_of_search (sound : Underway children value frames marks)
    (found : search children value turns frames marks = some marks') :
    Underway children value [] marks' ∧ Extends marks marks' ∧
      ∀ node ∈ frames.map fst, (valueAt marks' node).isSome := by
  induction turns generalizing frames marks with
  | zero =>
    cases frames with
    | nil =>
      cases found
      exact ⟨sound, fun _ _ => id, by simp⟩
    | cons frame frames => contradiction
  | succ turns ih =>
    cases frames with
    | nil =>
      cases found
      exact ⟨sound, fun _ _ => id, by simp⟩
    | cons frame frames =>
      obtain ⟨node, edge⟩ := frame
      rw [search] at found
      split at found
      · rename_i child more
        split at found
        · rename_i absent
          obtain ⟨after, kept, left⟩ := ih (sound.enter more absent) found
          refine ⟨after, ?_, fun other mem => left other (mem_cons_of_mem _ mem)⟩
          rwa [Extends, valueAt_insert_entered (valueAt_of_absent absent)] at kept
        · contradiction
        · rename_i v done
          have known : (valueAt marks child).isSome := by
            rw [valueAt, done]
            rfl
          obtain ⟨after, kept, left⟩ := ih (sound.next more known) found
          exact ⟨after, kept, left⟩
      · rename_i last
        obtain ⟨after, kept, left⟩ := ih (sound.leave last) found
        have fresh := valueAt_of_entered ((sound.entered node).2 (by simp))
        refine ⟨after, fun other v known => kept other v ?_, fun other mem => ?_⟩
        · rw [valueAt_insert_done, if_neg]
          · exact known
          · rintro rfl
            rw [fresh] at known
            contradiction
        · rcases mem_cons.1 mem with rfl | mem
          · have own := kept other _ (by rw [valueAt_insert_done, if_pos rfl])
            rw [own]
            rfl
          · exact left other mem

theorem sound_start {start : ν} (sound : Underway children value [] marks)
    (fresh : valueAt marks start = none) :
    Underway children value [(start, 0)] (marks.insert start .entered) := by
  refine { sound.toOnPath.push rfl (by simp) (by simp) with solved := ?_, covered := ⟨by simp, trivial⟩ }
  rw [Solved, valueAt_insert_entered fresh]
  exact sound.solved

theorem sound_of_searchFrom {start : ν} (sound : Underway children value [] marks)
    (found : searchFrom children value turns marks start = some marks') :
    Underway children value [] marks' ∧ Extends marks marks' ∧ (valueAt marks' start).isSome := by
  rw [searchFrom] at found
  split at found
  · rename_i v known
    cases found
    exact ⟨sound, fun _ _ => id, by rw [known]; rfl⟩
  · rename_i fresh
    obtain ⟨after, kept, left⟩ := sound_of_search (sound_start sound fresh) found
    rw [Extends, valueAt_insert_entered fresh] at kept
    exact ⟨after, kept, left start (by simp)⟩

theorem sound_of_searchAll (found : searchAll children value turns nodes = some marks) :
    Underway children value [] marks ∧ ∀ node ∈ nodes, (valueAt marks node).isSome := by
  have go : ∀ (nodes : List ν) (before : Marks ν β), Underway children value [] before →
      nodes.foldlM (searchFrom children value turns) before = some marks →
      Underway children value [] marks ∧ Extends before marks ∧
        ∀ node ∈ nodes, (valueAt marks node).isSome := by
    intro nodes
    induction nodes with
    | nil =>
      intro before sound found
      cases found
      exact ⟨sound, fun _ _ => id, by simp⟩
    | cons start nodes ih =>
      intro before sound found
      obtain ⟨middle, first, found⟩ := bind_eq_some_iff.1 found
      obtain ⟨sound, kept, here⟩ := sound_of_searchFrom sound first
      obtain ⟨sound, kept', all⟩ := ih middle sound found
      refine ⟨sound, fun node v known => kept' node v (kept node v known), fun node mem => ?_⟩
      rcases mem_cons.1 mem with rfl | mem
      · obtain ⟨v, known⟩ := isSome_iff_exists.1 here
        rw [kept' node v known]
        rfl
      · exact all node mem
  obtain ⟨sound, -, all⟩ := go nodes ∅ sound_empty found
  exact ⟨sound, all⟩

end Soundness

section Returns

def turnBound (children : ν → List ν) (nodes : List ν) : Nat :=
  (nodes.map fun node => (children node).length + 2).sum

theorem not_rel_self_of_acc {r : ν → ν → Prop} {a : ν} (acc : Acc r a) : ¬ r a a := by
  induction acc with
  | intro a _ ih => exact fun self => ih a self self

theorem not_acc_of_back {child : ν} {below : List ν}
    (chain : (node :: below).IsChain fun child parent => child ∈ children parent)
    (mem : child ∈ node :: below) (edge : child ∈ children node) :
    ¬ Acc (fun child parent => child ∈ children parent) child := by
  have up : Relation.ReflTransGen (fun child parent => child ∈ children parent) node child := by
    clear edge
    induction below generalizing node with
    | nil => rw [mem_singleton.1 mem]
    | cons parent below ih =>
      obtain ⟨first, chain⟩ := isChain_cons_cons.1 chain
      rcases mem_cons.1 mem with rfl | mem
      · exact .refl
      · exact .head first (ih chain mem)
  intro acc
  have cycle : Relation.TransGen (fun child parent => child ∈ children parent) child child :=
    Relation.TransGen.head' edge up
  exact not_rel_self_of_acc acc.transGen cycle

variable [Ord ν] [Std.TransOrd ν] {marks : Marks ν β}

def marked (marks : Marks ν β) (node : ν) : Bool := marks.contains node

theorem marked_insert (node : ν) (m : Mark β) (other : ν) (before : marked marks other = true) :
    marked (marks.insert node m) other = true := by
  rw [marked] at before ⊢
  simp [before]

theorem marked_insert_self (node : ν) (m : Mark β) : marked (marks.insert node m) node = true := by
  simp [marked]

theorem marked_of_absent (absent : marks[node]? = none) : marked marks node = false := by
  rw [marked, ExtTreeMap.contains_eq_isSome_getElem?, absent]
  rfl

variable [Std.LawfulEqOrd ν] [DecidableEq ν]

theorem search_returns (closed : ∀ node ∈ nodes, ∀ child ∈ children node, child ∈ nodes)
    (acyclic : ∀ node ∈ nodes, Acc (fun child parent => child ∈ children parent) node)
    (sound : Underway children value frames marks)
    (within : ∀ node ∈ frames.map fst, node ∈ nodes)
    (enough : turnsLeft children nodes frames (marked marks) ≤ turns) :
    ∃ marks', search children value turns frames marks = some marks' := by
  induction turns generalizing frames marks with
  | zero =>
    cases frames with
    | nil => exact ⟨marks, rfl⟩
    | cons frame frames =>
      simp only [turnsLeft, map_cons, sum_cons] at enough
      omega
  | succ turns ih =>
    cases frames with
    | nil => exact ⟨marks, rfl⟩
    | cons frame frames =>
      obtain ⟨node, edge⟩ := frame
      have here : node ∈ nodes := within node (by simp)
      rw [search]
      split
      · rename_i child more
        have listed := closed node here child (mem_of_getElem? more)
        split
        · rename_i absent
          refine ih (sound.enter more absent) ?_ ?_
          · simp only [map_cons, mem_cons] at within ⊢
            rintro other (rfl | mem)
            · exact listed
            · exact within other mem
          · have fewer := turnsLeft_enter frames more listed (marked_of_absent absent)
              (marked_insert_self child .entered) (marked_insert child .entered)
            omega
        · rename_i isEntered
          have below := (sound.entered child).1 isEntered
          exact absurd (acyclic child listed)
            (not_acc_of_back sound.chain below (mem_of_getElem? more))
        · rename_i v done
          have known : (valueAt marks child).isSome := by
            rw [valueAt, done]
            rfl
          have fewer := turnsLeft_next nodes frames (marked marks) more
          exact ih (sound.next more known) within (by omega)
      · rename_i last
        refine ih (sound.leave last) (fun other mem => within other (mem_cons_of_mem _ mem)) ?_
        exact Nat.le_of_lt_succ <| Nat.lt_of_lt_of_le
          (turnsLeft_leave nodes frames node edge (marked_insert node _)) enough

theorem searchAll_returns (closed : ∀ node ∈ nodes, ∀ child ∈ children node, child ∈ nodes)
    (acyclic : ∀ node ∈ nodes, Acc (fun child parent => child ∈ children parent) node) :
    ∃ marks, searchAll children value (turnBound children nodes) nodes = some marks := by
  have go : ∀ (rest : List ν) (before : Marks ν β), (∀ node ∈ rest, node ∈ nodes) →
      Underway children value [] before →
      ∃ marks, rest.foldlM (searchFrom children value (turnBound children nodes)) before =
        some marks := by
    intro rest
    induction rest with
    | nil => exact fun before _ _ => ⟨before, rfl⟩
    | cons start rest ih =>
      intro before within sound
      have first : ∃ middle, searchFrom children value (turnBound children nodes) before start =
          some middle := by
        rw [searchFrom]
        split
        · exact ⟨before, rfl⟩
        · rename_i fresh
          have listed := within start (by simp)
          refine search_returns closed acyclic (sound_start sound fresh) (by simpa using listed) ?_
          have used := sum_filter_add_le (p := fun _ => true)
            (q := fun node => !marked (before.insert start .entered) node)
            (fun node => (children node).length + 2) listed
            (by rw [marked_insert_self]; rfl) rfl (fun _ _ => rfl)
          rw [filter_true] at used
          simp only [turnsLeft, turnBound, map_cons, map_nil, sum_cons, sum_nil]
          omega
      obtain ⟨middle, found⟩ := first
      obtain ⟨after, -, -⟩ := sound_of_searchFrom sound found
      obtain ⟨marks, all⟩ := ih middle (fun node mem => within node (mem_cons_of_mem _ mem)) after
      exact ⟨marks, by rw [foldlM_cons, found]; exact all⟩
  exact go nodes ∅ (fun _ => id) sound_empty

end Returns

end DepthFirst
