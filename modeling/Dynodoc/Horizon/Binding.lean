import Dynodoc.Horizon.Record

/-! The roots of a horizon bind its rows. Leaves, nodes and the empty tree are told apart by what is
hashed first, and leaves of different kinds by their domain, so two roots that agree come from the
same rows unless two of the inputs that they hash collide. -/
namespace Dynodoc.Horizon
open Checkpoint (Address plainAddress)
open Log (Hashing utf8 toBeBytes)
open Transparency (treeHash split split_lt split_pos)
open Loop Sorted List Log

variable {env : Hashing} {α : Type}

section Tree

variable (env : Hashing)

/-- What the tree over these hashes feeds to the digest. -/
def nodeInputs (hashes : List Address) : List (List UInt8) :=
  match hashes with
  | [] => [[]]
  | [_] => []
  | a :: b :: rest =>
    let k := split (a :: b :: rest).length
    (1 :: ((treeHash (merkle env) ((a :: b :: rest).take k)).1 ++
      (treeHash (merkle env) ((a :: b :: rest).drop k)).1)) ::
      (nodeInputs ((a :: b :: rest).take k) ++ nodeInputs ((a :: b :: rest).drop k))
termination_by hashes.length
decreasing_by
  · have below := @split_lt (a :: b :: rest).length (by simp)
    simp only [length_take]
    omega
  · have positive := split_pos (a :: b :: rest).length
    simp only [length_drop, length_cons]
    simp only [length_cons] at positive
    omega

/-- What is hashed on the way from the data of the leaves to their root. -/
def treeInputs (leaves : List (List UInt8)) : List (List UInt8) :=
  leaves.map (0 :: ·) ++ nodeInputs env (leaves.map (leafHash env))

/-- No two of these inputs have the same digest. -/
def CollisionFree (inputs : List (List UInt8)) : Prop :=
  ∀ x ∈ inputs, ∀ y ∈ inputs, env.sha256 x = env.sha256 y → x = y

variable {env}

theorem nodeInputs_split (hashes : List Address) (two : 2 ≤ hashes.length) :
    nodeInputs env hashes =
      (1 :: ((treeHash (merkle env) (hashes.take (split hashes.length))).1 ++
        (treeHash (merkle env) (hashes.drop (split hashes.length))).1)) ::
        (nodeInputs env (hashes.take (split hashes.length)) ++
          nodeInputs env (hashes.drop (split hashes.length))) := by
  match hashes, two with
  | a :: b :: rest, _ => rw [nodeInputs]

theorem CollisionFree.mono {inputs more : List (List UInt8)} (free : CollisionFree env more)
    (subset : inputs ⊆ more) : CollisionFree env inputs :=
  fun x mem y mem' same => free x (subset mem) y (subset mem') same

theorem append_subset {xs ys zs ws : List (List UInt8)} (left : xs ⊆ zs) (right : ys ⊆ ws) :
    xs ++ ys ⊆ zs ++ ws := by
  intro input mem
  rcases mem_append.1 mem with mem | mem
  · exact mem_append_left _ (left mem)
  · exact mem_append_right _ (right mem)

/-- The input whose digest is the root. -/
def rootInput (env : Hashing) : List (List UInt8) → List UInt8
  | [] => []
  | [leaf] => 0 :: leaf
  | a :: b :: rest =>
    let k := split (a :: b :: rest).length
    1 :: ((treeHash (merkle env) (((a :: b :: rest).take k).map (leafHash env))).1 ++
      (treeHash (merkle env) (((a :: b :: rest).drop k).map (leafHash env))).1)

theorem sha256_rootInput (leaves : List (List UInt8)) :
    env.sha256 (rootInput env leaves) = treeHash (merkle env) (leaves.map (leafHash env)) := by
  match leaves with
  | [] => rw [map_nil, treeHash]; rfl
  | [leaf] => rw [map_cons, map_nil, treeHash]; rfl
  | a :: b :: rest =>
    rw [Transparency.treeHash_split _ _ (by simp), length_map, ← map_take, ← map_drop]
    rfl

theorem rootInput_mem (leaves : List (List UInt8)) : rootInput env leaves ∈ treeInputs env leaves := by
  match leaves with
  | [] => simp [rootInput, treeInputs, nodeInputs]
  | [leaf] => simp [rootInput, treeInputs]
  | a :: b :: rest =>
    rw [treeInputs, mem_append, nodeInputs_split _ (by simp), length_map, ← map_take, ← map_drop]
    exact .inr mem_cons_self

theorem treeInputs_parts (leaves : List (List UInt8)) (two : 2 ≤ leaves.length) :
    treeInputs env (leaves.take (split leaves.length)) ⊆ treeInputs env leaves ∧
      treeInputs env (leaves.drop (split leaves.length)) ⊆ treeInputs env leaves := by
  have whole : treeInputs env leaves =
      leaves.map (0 :: ·) ++ nodeInputs env (leaves.map (leafHash env)) := rfl
  rw [nodeInputs_split _ (by simpa using two), length_map, ← map_take, ← map_drop] at whole
  rw [whole]
  constructor
  · intro input mem
    rcases mem_append.1 mem with mem | mem
    · obtain ⟨leaf, isLeaf, rfl⟩ := mem_map.1 mem
      exact mem_append_left _ (mem_map_of_mem (mem_of_mem_take isLeaf))
    · exact mem_append_right _ (mem_cons_of_mem _ (mem_append_left _ mem))
  · intro input mem
    rcases mem_append.1 mem with mem | mem
    · obtain ⟨leaf, isLeaf, rfl⟩ := mem_map.1 mem
      exact mem_append_left _ (mem_map_of_mem (mem_of_mem_drop isLeaf))
    · exact mem_append_right _ (mem_cons_of_mem _ (mem_append_right _ mem))

/-- Trees with the same root have the same leaves, whatever their sizes. -/
theorem leaves_of_root (leaves leaves' : List (List UInt8))
    (free : CollisionFree env (treeInputs env leaves ++ treeInputs env leaves'))
    (same : treeHash (merkle env) (leaves.map (leafHash env)) =
      treeHash (merkle env) (leaves'.map (leafHash env))) :
    leaves = leaves' := by
  induction size : leaves.length using Nat.strong_induction_on generalizing leaves leaves' with
  | _ n ih =>
    rw [← sha256_rootInput, ← sha256_rootInput] at same
    have inputs := free _ (mem_append_left _ (rootInput_mem leaves)) _
      (mem_append_right _ (rootInput_mem leaves')) same
    match leaves, leaves' with
    | [], [] => rfl
    | [], [leaf] => simp [rootInput] at inputs
    | [], a :: b :: rest => simp [rootInput] at inputs
    | [leaf], [] => simp [rootInput] at inputs
    | [leaf], [leaf'] => simpa [rootInput] using inputs
    | [leaf], a :: b :: rest => simp [rootInput] at inputs
    | a :: b :: rest, [] => simp [rootInput] at inputs
    | a :: b :: rest, [leaf] => simp [rootInput] at inputs
    | a :: b :: rest, a' :: b' :: rest' =>
      -- Both halves of a node have the width of a digest, so the two nodes agree half by half.
      simp only [rootInput, List.cons.injEq, true_and] at inputs
      have widths (x y : Address) : x.1.length = y.1.length := x.2.trans y.2.symm
      obtain ⟨left, right⟩ := append_inj inputs (widths _ _)
      obtain ⟨front, back⟩ := @treeInputs_parts env (a :: b :: rest) (by simp)
      obtain ⟨front', back'⟩ := @treeInputs_parts env (a' :: b' :: rest') (by simp)
      have below := @split_lt (a :: b :: rest).length (by simp)
      have positive := split_pos (a :: b :: rest).length
      have first := ih _ (by rw [length_take]; omega) _ _
        (free.mono (append_subset front front')) (Subtype.ext left) rfl
      have second := ih _ (by rw [length_drop]; omega) _ _
        (free.mono (append_subset back back')) (Subtype.ext right) rfl
      rw [← take_append_drop (split (a :: b :: rest).length) (a :: b :: rest), first, second,
        take_append_drop]

end Tree

section Rows

variable {cmp : α → α → Ordering} {leaf : α → Except Error Address} {data : α → List UInt8}
  {items items' : List α} {root root' : Address}

/-- Accepted rows of one kind are hashed from data that they can be read back from. -/
structure Format (env : Hashing) (leaf : α → Except Error Address) (data : α → List UInt8) : Prop where
  hashed : ∀ a hash, leaf a = .ok hash → hash = leafHash env (data a)
  readable : ∀ a b hash hash', leaf a = .ok hash → leaf b = .ok hash' → data a = data b → a = b

theorem Format.hashes (format : Format env leaf data) {hashes : List Address}
    (each : List.Forall₂ (fun a hash => leaf a = .ok hash) items hashes) :
    hashes = (items.map data).map (leafHash env) := by
  induction each with
  | nil => rfl
  | cons found _ ih => rw [map_cons, map_cons, ← format.hashed _ _ found, ← ih]

theorem rootOf_eq_ok (format : Format env leaf data) (rooted : rootOf env cmp leaf items = .ok root) :
    root = treeHash (merkle env) (((sortBy cmp items).map data).map (leafHash env)) ∧
      ∀ a ∈ items, ∃ hash, leaf a = .ok hash := by
  obtain ⟨-, rooted⟩ := guard_eq_ok.1 rooted
  obtain ⟨hashes, mapped, same⟩ := bind_eq_ok.1 rooted
  have each := mapM_eq_ok.1 mapped
  cases same
  refine ⟨by rw [format.hashes each], fun a mem => ?_⟩
  obtain ⟨hash, -, found⟩ := exists_right_of_mem each (mem_sortBy.2 mem)
  exact ⟨hash, found⟩

theorem rootOf_distinct [Std.TransCmp cmp] (rooted : rootOf env cmp leaf items = .ok root) :
    ∀ a ∈ items, ∀ b ∈ items, cmp a b = .eq → a = b := by
  obtain ⟨adjacent, rooted⟩ := guard_eq_ok.1 rooted
  have distinct := distinct_of_adjacent (sortBy_pairwise items) fun pair mem same => adjacent
    (any_eq_true.2 ⟨pair, mem, by simpa using same⟩)
  intro a mem b mem'
  exact distinct a (mem_sortBy.2 mem) b (mem_sortBy.2 mem')

/-- The data of the leaves, in order, says which rows there are. -/
theorem leaves_eq_iff_perm [Std.TransCmp cmp] (format : Format env leaf data)
    (rooted : rootOf env cmp leaf items = .ok root) (rooted' : rootOf env cmp leaf items' = .ok root') :
    (sortBy cmp items).map data = (sortBy cmp items').map data ↔ items.Perm items' := by
  constructor
  · intro same
    have accepted := (rootOf_eq_ok format rooted).2
    have accepted' := (rootOf_eq_ok format rooted').2
    have sorted : sortBy cmp items = sortBy cmp items' := by
      refine ext_getElem (by simpa using congrArg List.length same) fun i lt lt' => ?_
      have here : data (sortBy cmp items)[i] = data (sortBy cmp items')[i] := by
        have := congrArg (·[i]?) same
        simpa [lt, lt'] using this
      obtain ⟨hash, found⟩ := accepted _ (mem_sortBy.1 (getElem_mem lt))
      obtain ⟨hash', found'⟩ := accepted' _ (mem_sortBy.1 (getElem_mem lt'))
      exact format.readable _ _ hash hash' found found' here
    exact (sortBy_perm cmp items).symm.trans (sorted ▸ sortBy_perm cmp items')
  · intro perm
    rw [sortBy_eq_of_perm perm (rootOf_distinct rooted)]

end Rows

section Kinds

def skeletonData (e : SkeletonEntry) : List UInt8 :=
  utf8 "dynodoc.horizon-skeleton-leaf\x00v1\x00" ++ e.address.1 ++ [UInt8.ofNat e.parents.length] ++
    e.parents.flatMap Subtype.val ++ toBeBytes e.height

def frontierData (e : FrontierEdge) : List UInt8 :=
  utf8 "dynodoc.horizon-frontier-leaf\x00v1\x00" ++ e.child.1 ++ e.parent.1 ++ toBeBytes e.parentHeight

def stateData (s : StateKey) : List UInt8 :=
  utf8 "dynodoc.horizon-state-leaf\x00v1\x00" ++ s.document.1 ++ s.stateRoot.1

def retainedData (a : Address) : List UInt8 := utf8 "dynodoc.horizon-retained-leaf\x00v1\x00" ++ a.1

theorem address_append {a b : Address} {rest rest' : List UInt8} (same : a.1 ++ rest = b.1 ++ rest') :
    a = b ∧ rest = rest' := by
  obtain ⟨first, second⟩ := append_inj same (a.2.trans b.2.symm)
  exact ⟨Subtype.ext first, second⟩

theorem addresses_append {as bs : List Address} {rest rest' : List UInt8} (lengths : as.length = bs.length)
    (same : as.flatMap Subtype.val ++ rest = bs.flatMap Subtype.val ++ rest') : as = bs ∧ rest = rest' := by
  induction as generalizing bs with
  | nil =>
    cases bs with
    | nil => exact ⟨rfl, same⟩
    | cons b bs => contradiction
  | cons a as ih =>
    cases bs with
    | nil => contradiction
    | cons b bs =>
      rw [flatMap_cons, flatMap_cons, append_assoc, append_assoc] at same
      obtain ⟨rfl, tails⟩ := address_append same
      obtain ⟨rfl, left⟩ := ih (by simpa using lengths) tails
      exact ⟨rfl, left⟩

theorem height_inj {n m : Nat} (small : n ≤ maxJsonInt) (small' : m ≤ maxJsonInt)
    (same : toBeBytes n = toBeBytes m) : n = m := by
  unfold maxJsonInt at small small'
  exact BigEndian.encode_injective (by omega) (by omega) same

theorem skeletonFormat : Format env (skeletonLeaf env) skeletonData := by
  constructor
  · intro e hash found
    obtain ⟨-, found⟩ := guard_eq_ok.1 found
    cases found
    rfl
  · intro a b hash hash' found found' same
    unfold skeletonLeaf at found found'
    split at found
    · contradiction
    split at found'
    · contradiction
    simp only [skeletonData, append_assoc] at same
    have same := append_cancel_left same
    obtain ⟨address, same⟩ := address_append same
    rw [singleton_append, singleton_append, List.cons.injEq] at same
    obtain ⟨count, same⟩ := same
    have lengths : a.parents.length = b.parents.length := by
      have := congrArg UInt8.toNat count
      rw [UInt8.toNat_ofNat', UInt8.toNat_ofNat'] at this
      omega
    obtain ⟨parents, height⟩ := addresses_append lengths same
    have height := height_inj (by omega) (by omega) height
    cases a
    cases b
    simp_all

theorem frontierFormat : Format env (frontierLeaf env) frontierData := by
  constructor
  · intro e hash found
    obtain ⟨-, found⟩ := guard_eq_ok.1 found
    cases found
    rfl
  · intro a b hash hash' found found' same
    unfold frontierLeaf at found found'
    split at found
    · contradiction
    split at found'
    · contradiction
    simp only [frontierData, append_assoc] at same
    have same := append_cancel_left same
    obtain ⟨child, same⟩ := address_append same
    obtain ⟨parent, same⟩ := address_append same
    have height := height_inj (by omega) (by omega) same
    cases a
    cases b
    simp_all

theorem stateFormat : Format env (stateLeaf env) stateData := by
  constructor
  · intro s hash found
    cases found
    rfl
  · intro a b hash hash' _ _ same
    simp only [stateData, append_assoc] at same
    have same := append_cancel_left same
    obtain ⟨document, same⟩ := append_inj same (a.document.2.trans b.document.2.symm)
    cases a
    cases b
    simp_all [Subtype.ext_iff]

theorem retainedFormat : Format env (retainedLeaf env) retainedData := by
  constructor
  · intro a hash found
    cases found
    rfl
  · intro a b hash hash' _ _ same
    exact Subtype.ext (append_cancel_left same)

inductive Rows where
  | skeleton (entries : List SkeletonEntry)
  | frontier (edges : List FrontierEdge)
  | releasedStates (states : List StateKey)
  | retained (commits : List Address)

inductive Kind where
  | skeleton | frontier | releasedStates | retained
  deriving DecidableEq

def Rows.kind : Rows → Kind
  | .skeleton _ => .skeleton
  | .frontier _ => .frontier
  | .releasedStates _ => .releasedStates
  | .retained _ => .retained

def Rows.isEmpty : Rows → Bool
  | .skeleton entries => entries.isEmpty
  | .frontier edges => edges.isEmpty
  | .releasedStates states => states.isEmpty
  | .retained commits => commits.isEmpty

def Rows.root (env : Hashing) : Rows → Except Error Address
  | .skeleton entries => skeletonRoot env entries
  | .frontier edges => frontierRoot env edges
  | .releasedStates states => releasedStatesRoot env states
  | .retained commits => retainedRoot env commits

def Rows.leaves : Rows → List (List UInt8)
  | .skeleton entries => (sortBy (compareOn SkeletonEntry.address) entries).map skeletonData
  | .frontier edges => (sortBy FrontierEdge.cmp edges).map frontierData
  | .releasedStates states => (sortBy compare states).map stateData
  | .retained commits => (sortBy compare commits).map retainedData

inductive Rows.Perm : Rows → Rows → Prop
  | skeleton {entries entries' : List SkeletonEntry} (perm : entries.Perm entries') :
      Perm (.skeleton entries) (.skeleton entries')
  | frontier {edges edges' : List FrontierEdge} (perm : edges.Perm edges') :
    Perm (.frontier edges) (.frontier edges')
  | releasedStates {states states' : List StateKey} (perm : states.Perm states') :
      Perm (.releasedStates states) (.releasedStates states')
  | retained {commits commits' : List Address} (perm : commits.Perm commits') :
      Perm (.retained commits) (.retained commits')

def Rows.inputs (env : Hashing) (rows : Rows) : List (List UInt8) := treeInputs env rows.leaves

variable {rows rows' : Rows} {root root' : Address}

theorem Rows.root_eq (accepted : rows.root env = .ok root) :
    root = treeHash (merkle env) (rows.leaves.map (leafHash env)) := by
  cases rows with
  | skeleton entries => exact (rootOf_eq_ok skeletonFormat accepted).1
  | frontier edges => exact (rootOf_eq_ok frontierFormat accepted).1
  | releasedStates states => exact (rootOf_eq_ok stateFormat accepted).1
  | retained commits => exact (rootOf_eq_ok retainedFormat accepted).1

instance FrontierEdge.transCmp : Std.TransCmp FrontierEdge.cmp :=
  inferInstanceAs (Std.TransCmp (compareLex (compareOn FrontierEdge.child) (compareOn FrontierEdge.parent)))

theorem Rows.leaves_eq_iff (accepted : rows.root env = .ok root) (accepted' : rows'.root env = .ok root')
    (same : rows.kind = rows'.kind) : rows.leaves = rows'.leaves ↔ rows.Perm rows' := by
  cases rows with
  | skeleton entries =>
    cases rows' with
    | skeleton entries' =>
      refine (leaves_eq_iff_perm skeletonFormat accepted accepted').trans ⟨.skeleton, fun same => ?_⟩
      cases same with
      | skeleton perm => exact perm
    | _ => contradiction
  | frontier edges =>
    cases rows' with
    | frontier edges' =>
      refine (leaves_eq_iff_perm frontierFormat accepted accepted').trans ⟨.frontier, fun same => ?_⟩
      cases same with
      | frontier perm => exact perm
    | _ => contradiction
  | releasedStates states =>
    cases rows' with
    | releasedStates states' =>
      refine (leaves_eq_iff_perm stateFormat accepted accepted').trans ⟨.releasedStates, fun same => ?_⟩
      cases same with
      | releasedStates perm => exact perm
    | _ => contradiction
  | retained commits =>
    cases rows' with
    | retained commits' =>
      refine (leaves_eq_iff_perm retainedFormat accepted accepted').trans ⟨.retained, fun same => ?_⟩
      cases same with
      | retained perm => exact perm
    | _ => contradiction

/-- Where the domains of the four kinds differ. -/
def Kind.mark : Kind → List UInt8
  | .skeleton => utf8 "dynodoc.horizon-sk"
  | .frontier => utf8 "dynodoc.horizon-fr"
  | .releasedStates => utf8 "dynodoc.horizon-st"
  | .retained => utf8 "dynodoc.horizon-re"

open Kind

theorem Kind.mark_injective : Function.Injective mark := by
  have distinct : ∀ kind ∈ [skeleton, .frontier, .releasedStates, .retained],
      ∀ kind' ∈ [skeleton, .frontier, .releasedStates, .retained], kind.mark = kind'.mark →
      kind = kind' := by
    decide +kernel
  have all (kind : Kind) : kind ∈ [skeleton, .frontier, .releasedStates, .retained] := by
    cases kind <;> simp
  exact fun kind kind' => distinct kind (all kind) kind' (all kind')

theorem take_of_domain {mark domain rest : List UInt8} (starts : domain.take 18 = mark)
    (long : 18 ≤ domain.length) :
    (domain ++ rest).take 18 = mark := by
  rw [take_append_of_le_length long, starts]

theorem Rows.take_leaf {leaf : List UInt8} (mem : leaf ∈ rows.leaves) : leaf.take 18 = rows.kind.mark := by
  cases rows with
  | skeleton entries =>
    obtain ⟨e, -, rfl⟩ := mem_map.1 mem
    simp only [skeletonData, append_assoc]
    change _ = mark .skeleton
    exact take_of_domain (by decide +kernel) (by decide +kernel)
  | frontier edges =>
    obtain ⟨e, -, rfl⟩ := mem_map.1 mem
    simp only [frontierData, append_assoc]
    change _ = mark .frontier
    exact take_of_domain (by decide +kernel) (by decide +kernel)
  | releasedStates states =>
    obtain ⟨s, -, rfl⟩ := mem_map.1 mem
    simp only [stateData, append_assoc]
    change _ = mark .releasedStates
    exact take_of_domain (by decide +kernel) (by decide +kernel)
  | retained commits =>
    obtain ⟨a, -, rfl⟩ := mem_map.1 mem
    change _ = mark .retained
    exact take_of_domain (by decide +kernel) (by decide +kernel)

theorem isEmpty_of_leaves {cmp : α → α → Ordering} {data : α → List UInt8} {items : List α}
    (empty : (sortBy cmp items).map data = []) : items.isEmpty = true := by
  have perm := sortBy_perm cmp items
  rw [map_eq_nil_iff.1 empty] at perm
  rw [nil_perm.1 perm]
  rfl

theorem Rows.leaves_eq_nil (empty : rows.leaves = []) : rows.isEmpty = true := by
  cases rows with
  | skeleton entries => exact isEmpty_of_leaves empty
  | frontier edges => exact isEmpty_of_leaves empty
  | releasedStates states => exact isEmpty_of_leaves empty
  | retained commits => exact isEmpty_of_leaves empty

theorem roots_bind_rows (env : Hashing) {rows rows' : Rows} {root root' : Address}
    (accepted : rows.root env = .ok root) (accepted' : rows'.root env = .ok root')
    (free : CollisionFree env (rows.inputs env ++ rows'.inputs env)) :
    (rows.kind = rows'.kind → (root = root' ↔ rows.Perm rows')) ∧
      (rows.kind ≠ rows'.kind → rows.isEmpty = false → rows'.isEmpty = false → root ≠ root') := by
  have bound : root = root' ↔ rows.leaves = rows'.leaves := by
    rw [rows.root_eq accepted, rows'.root_eq accepted']
    constructor
    · exact leaves_of_root _ _ free
    · intro same
      rw [same]
  constructor
  · intro same
    rw [bound, Rows.leaves_eq_iff accepted accepted' same]
  · intro differ filled _ same
    have leaves := bound.1 same
    -- The first leaf would belong to both kinds.
    cases first : rows.leaves with
    | nil =>
      rw [Rows.leaves_eq_nil first] at filled
      contradiction
    | cons leaf rest =>
      have mark := @Rows.take_leaf rows leaf (by rw [first]; exact mem_cons_self)
      have mark' := @Rows.take_leaf rows' leaf (by rw [← leaves, first]; exact mem_cons_self)
      exact differ (Kind.mark_injective (mark.symm.trans mark'))

/-- Two addresses have one root in either order. -/
theorem two_addresses_bound : ∃ root root',
    (Rows.retained [plainAddress 1, plainAddress 2]).root sumHashing = .ok root ∧
    (Rows.retained [plainAddress 2, plainAddress 1]).root sumHashing = .ok root' ∧ root = root' := by
  have free : CollisionFree sumHashing
      ((Rows.retained [plainAddress 1, plainAddress 2]).inputs sumHashing ++
        (Rows.retained [plainAddress 2, plainAddress 1]).inputs sumHashing) := by
    unfold CollisionFree Rows.inputs
    decide +kernel
  obtain ⟨root, accepted⟩ : ∃ root,
      (Rows.retained [plainAddress 1, plainAddress 2]).root sumHashing = .ok root := ⟨_, rfl⟩
  obtain ⟨root', accepted'⟩ : ∃ root,
      (Rows.retained [plainAddress 2, plainAddress 1]).root sumHashing = .ok root := ⟨_, rfl⟩
  exact ⟨root, root', accepted, accepted',
    ((roots_bind_rows sumHashing accepted accepted' free).1 rfl).2 (.retained (.swap _ _ _))⟩

end Kinds

end Dynodoc.Horizon
