import Dynodoc.Document.State
import Dynodoc.Lib.Sorted

/-! Refs: a node is named by the shortest suffix of its id that no other node's id ends with. -/
namespace Dynodoc.Agent
open Sorted Std List OrientedCmp

variable {id : NodeId}

def minRefLen : Nat := 4
def maxRefLen : Nat := 26
def maxCandidates : Nat := 5

structure Ref where
  text : String
  deriving DecidableEq

variable {r : Ref}

inductive ResolveError where
  | unknown
  | ambiguous (candidates : List Ref)
  deriving DecidableEq

/-- Only ids and refs of ASCII characters are looked up. -/
def upper (id : String) : List Char := id.toList.map Char.toUpper

def reversedUpper (id : String) : List Char := (upper id).reverse

def addressable (id : String) : Bool :=
  minRefLen ≤ id.length && id.length ≤ maxRefLen && id.toList.all Char.isAlphanum

/-- An id under its characters from the last to the first, so that ids with a common suffix stand
together. -/
structure Indexed where
  key : List Char
  id : String
  deriving DecidableEq

def indexed (id : String) : Indexed := ⟨reversedUpper id, id⟩

def Indexed.order : Indexed → Indexed → Ordering :=
  compareLex (compareOn Indexed.key) (compareOn Indexed.id)

instance : TransCmp Indexed.order := inferInstanceAs (TransCmp (compareLex _ _))

def commonPrefix (a b : List Char) : Nat := ((a.zip b).takeWhile fun pair => pair.1 = pair.2).length

structure RefIndex where
  keys : List Indexed

namespace RefIndex

def build (ids : List NodeId) : RefIndex :=
  ⟨sortBy Indexed.order ((ids.filter addressable).map indexed).dedup⟩

variable (index : RefIndex)

def shared (key : Indexed) : Nat :=
  let prev := (index.keys.filter fun k => k.order key = .lt).getLast?
  let next := (index.keys.filter fun k => key.order k = .lt).head?
  ((prev.toList ++ next.toList).map fun k => commonPrefix key.key k.key).max?.getD 0

def refOf (id : NodeId) : Option Ref :=
  let key := indexed id
  if key ∉ index.keys then none
  else
    let len := min (max (index.shared key + 1) minRefLen) key.key.length
    let upper := key.key.reverse
    some ⟨String.ofList (upper.drop (upper.length - len))⟩

def hits (target : List Char) : List Indexed :=
  ((index.keys.filter fun k => (Indexed.order ⟨target, ""⟩ k).isLE).takeWhile fun k =>
    target.isPrefixOf k.key).take (maxCandidates + 1)

def resolve (r : Ref) : Except ResolveError NodeId :=
  let target := reversedUpper r.text
  match (index.hits target).find? fun k => k.key = target with
  | some k => .ok k.id
  | none =>
    match index.hits target with
    | [] => .error .unknown
    | [k] => .ok k.id
    | many => .error (.ambiguous ((many.take maxCandidates).filterMap fun k => index.refOf k.id))

end RefIndex

section Prefixes

variable {a b c p : List Char}

theorem prefix_between (first : p <+: a) (last : p <+: c) (low : (compare a b).isLE)
    (high : (compare b c).isLE) : p <+: b := by
  induction p generalizing a b c with
  | nil => exact nil_prefix
  | cons x p ih =>
    obtain ⟨a, rfl⟩ := first
    obtain ⟨c, rfl⟩ := last
    cases b with
    | nil => simp at low
    | cons y b =>
      rw [List.cons_append, List.compare_cons_cons] at low high
      have same : x = y := by
        rw [OrientedOrd.eq_swap (a := y)] at high
        cases order : compare x y with
        | lt => simp [order] at high
        | eq => exact Std.compare_eq_iff_eq.1 order
        | gt => simp [order] at low
      subst same
      simp only [ReflOrd.compare_self] at low high
      exact cons_prefix_cons.2 ⟨rfl, ih (prefix_append ..) (prefix_append ..) low high⟩

theorem compare_prefix (isPrefix : p <+: a) : (compare p a).isLE := by
  induction p generalizing a with
  | nil => cases a <;> simp
  | cons x p ih =>
    obtain ⟨a, rfl⟩ := isPrefix
    rw [List.cons_append, List.compare_cons_cons, ReflOrd.compare_self]
    exact ih (List.prefix_append ..)

theorem le_commonPrefix {n : Nat} : n ≤ commonPrefix a b ↔ n ≤ a.length ∧ a.take n <+: b := by
  induction a generalizing b n with
  | nil => cases n <;> simp [commonPrefix]
  | cons x a ih =>
    cases n with
    | zero => simp
    | succ n =>
      cases b with
      | nil => simp [commonPrefix]
      | cons y b =>
        by_cases same : x = y
        · subst same
          have step : commonPrefix (x :: a) (x :: b) = commonPrefix a b + 1 := by simp [commonPrefix]
          simp [step, ih]
        · simp [commonPrefix, same]

end Prefixes

theorem toUpper_of_not_low {c : Char} (other : ¬('a'.val ≤ c.val ∧ c.val ≤ 'z'.val)) : c.toUpper = c := by
  unfold Char.toUpper
  rw [dif_neg other]

theorem toUpper_toUpper (c : Char) : c.toUpper.toUpper = c.toUpper := by
  by_cases low : 'a'.val ≤ c.val ∧ c.val ≤ 'z'.val
  · have value : c.toUpper.val = c.val + ('A'.val - 'a'.val) := by
      unfold Char.toUpper
      rw [dif_pos low]
    refine toUpper_of_not_low ?_
    rw [value]
    simp only [UInt32.le_iff_toNat_le, UInt32.toNat_add] at low ⊢
    have : ('A'.val - 'a'.val).toNat = 4294967264 := by decide
    have : 'a'.val.toNat = 97 := by decide
    have : 'z'.val.toNat = 122 := by decide
    omega
  · rw [toUpper_of_not_low low, toUpper_of_not_low low]

section Index

variable {ids : List NodeId} {k k' : Indexed}

open RefIndex

theorem mem_build : k ∈ (build ids).keys ↔ ∃ id ∈ ids, addressable id ∧ indexed id = k := by
  simp [build, and_assoc]

open Indexed

theorem isLE_key {a b : Indexed} (le : (a.order b).isLE) : (compare a.key b.key).isLE := by
  rw [order, compareLex, compareOn] at le
  cases order : compare a.key b.key <;> simp_all

theorem sorted_build (ids : List NodeId) :
    (build ids).keys.Pairwise fun a b => (a.order b).isLE :=
  sortBy_pairwise _

/-- The ids differ when case is ignored. -/
def Apart (ids : List NodeId) : Prop := ∀ a ∈ ids, ∀ b ∈ ids, upper a = upper b → a = b

theorem Apart.key_injective (apart : Apart ids) (mem : k ∈ (build ids).keys)
    (mem' : k' ∈ (build ids).keys) (same : k.key = k'.key) : k = k' := by
  obtain ⟨a, inside, -, rfl⟩ := mem_build.1 mem
  obtain ⟨b, inside', -, rfl⟩ := mem_build.1 mem'
  rw [apart a inside b inside' (reverse_injective same)]

/-- No other id shares more with an id than one of its neighbours in the index does. -/
theorem commonPrefix_le_shared (apart : Apart ids) (mem : k ∈ (build ids).keys)
    (mem' : k' ∈ (build ids).keys) (differ : k' ≠ k) :
    commonPrefix k.key k'.key ≤ (build ids).shared k := by
  obtain ⟨long, begins⟩ := le_commonPrefix.1 (Nat.le_refl (commonPrefix k.key k'.key))
  have own := take_prefix (commonPrefix k.key k'.key) k.key
  have bound {near : Indexed} (isNear : near ∈ ((build ids).keys.filter fun k' =>
        k'.order k = .lt).getLast?.toList ++ ((build ids).keys.filter fun k' =>
        k.order k' = .lt).head?.toList)
      (begins : k.key.take (commonPrefix k.key k'.key) <+: near.key) :
      commonPrefix k.key k'.key ≤ (build ids).shared k :=
    (le_commonPrefix.2 ⟨long, begins⟩).trans
      (le_max?_getD_of_mem (mem_map_of_mem isNear))
  have sorted (p : Indexed → Bool) := (sorted_build ids).filter p
  cases order : k'.order k with
  | lt =>
    obtain ⟨near, last, le⟩ := le_last (sorted fun k' => k'.order k = .lt) (a := k')
      (mem_filter.2 ⟨mem', by simpa using order⟩)
    have less : near.order k = .lt := by simpa using (mem_filter.1 (mem_of_getLast? last)).2
    exact bound (by simp [Option.mem_def.1 last])
      (prefix_between begins own (isLE_key le) (isLE_key (by simp [less])))
  | eq =>
    have same := isLE_antisymm (isLE_key (a := k') (b := k) (by simp [order]))
      (isLE_key (by simp [eq_symm order]))
    exact absurd (apart.key_injective mem' mem (Std.compare_eq_iff_eq.1 same)) differ
  | gt =>
    have order := lt_of_gt order
    obtain ⟨near, first, le⟩ := head_le (sorted fun k' => k.order k' = .lt) (a := k')
      (mem_filter.2 ⟨mem', by simpa using order⟩)
    have less : k.order near = .lt := by simpa using (mem_filter.1 (mem_of_head? first)).2
    exact bound (by simp [Option.mem_def.1 first])
      (prefix_between own begins (isLE_key (by simp [less])) (isLE_key le))

/-- What is shared is shared with another id. -/
theorem exists_shared (some_ : 0 < (build ids).shared k) :
    ∃ k' ∈ (build ids).keys, k' ≠ k ∧
      commonPrefix k.key k'.key = (build ids).shared k := by
  rw [shared] at some_ ⊢
  cases most : (List.map (fun k' : Indexed => commonPrefix k.key k'.key) _).max? with
  | none =>
    rw [most] at some_
    exact absurd some_ (Nat.lt_irrefl 0)
  | some n =>
    obtain ⟨near, isNear, same⟩ := mem_map.1 (max?_mem most)
    have other : near ∈ (build ids).keys ∧ near ≠ k := by
      have self : k.order k = .eq := ReflCmp.compare_self
      rcases mem_append.1 isNear with isNear | isNear
      · have inside := mem_filter.1 (mem_of_getLast? (Option.mem_toList.1 isNear))
        refine ⟨inside.1, ?_⟩
        rintro rfl
        simp [self] at inside
      · have inside := mem_filter.1 (mem_of_head? (Option.mem_toList.1 isNear))
        refine ⟨inside.1, ?_⟩
        rintro rfl
        simp [self] at inside
    exact ⟨near, other.1, other.2, same⟩

/-- The whole of an id, or no other id ends with it; every shorter suffix is another's too. -/
structure Shortest (ids : List NodeId) (id : NodeId) (s : List Char) : Prop where
  suffix : s <:+ upper id
  long : minRefLen ≤ s.length
  own : s = upper id ∨ ∀ other ∈ ids, addressable other → other ≠ id → ¬ s <:+ upper other
  least : ∀ shorter, shorter <:+ upper id → minRefLen ≤ shorter.length →
    shorter.length < s.length → ∃ other ∈ ids, addressable other ∧ other ≠ id ∧ shorter <:+ upper other

theorem shortest_refOf (apart : Apart ids) (mem : id ∈ ids) (isAddressable : addressable id) :
    ∃ r, (build ids).refOf id = some r ∧ Shortest ids id r.text.toList := by
  have inside : indexed id ∈ (build ids).keys := mem_build.2 ⟨id, mem, isAddressable, rfl⟩
  obtain ⟨len, isLen⟩ : ∃ len, len = min (max ((build ids).shared (indexed id) + 1) minRefLen)
    (upper id).length := ⟨_, rfl⟩
  have enough : minRefLen ≤ (upper id).length := by
    simp only [addressable, Bool.and_eq_true, decide_eq_true_eq] at isAddressable
    rw [upper, length_map]
    exact isAddressable.1.1
  have size : ((upper id).drop ((upper id).length - len)).length = len := by
    rw [length_drop]
    omega
  refine ⟨⟨String.ofList ((upper id).drop ((upper id).length - len))⟩, ?_, ?_⟩
  · rw [refOf, if_neg (not_not.2 inside)]
    simp [indexed, reversedUpper, isLen]
  rw [String.toList_ofList]
  refine ⟨drop_suffix .., by omega, ?_, fun shorter suffix long less => ?_⟩
  · rcases Nat.lt_or_ge (max ((build ids).shared (indexed id) + 1) minRefLen)
      (upper id).length with part | whole
    · refine .inr fun other mem' isAddressable' differ ends => ?_
      have within := commonPrefix_le_shared apart inside
        (mem_build.2 ⟨other, mem', isAddressable', rfl⟩) fun same => differ (congrArg Indexed.id same)
      have more : len ≤ commonPrefix (indexed id).key (indexed other).key := by
        refine le_commonPrefix.2 ⟨by simp [indexed, reversedUpper]; omega, ?_⟩
        rw [indexed, reversedUpper, take_reverse]
        exact reverse_prefix.2 ends
      omega
    · left
      rw [show (upper id).length - len = 0 by omega, drop_zero]
  · have some_ : 0 < (build ids).shared (indexed id) := by
      simp only [minRefLen] at *
      omega
    obtain ⟨other, inside', differ, common⟩ := exists_shared some_
    obtain ⟨otherId, mem', isAddressable', rfl⟩ := mem_build.1 inside'
    refine ⟨otherId, mem', isAddressable', fun same => differ (congrArg indexed same), ?_⟩
    obtain ⟨-, begins⟩ := le_commonPrefix.1 (show shorter.length ≤
      commonPrefix (indexed id).key (indexed otherId).key by simp only [minRefLen] at *; omega)
    have reversed := reverse_prefix.2 suffix
    have same := prefix_iff_eq_take.1 reversed
    rw [length_reverse] at same
    exact reverse_prefix.1 (same ▸ begins)

variable {target : List Char}

/-- The ids that begin, from behind, with what is looked for. -/
theorem hits_eq (ids : List NodeId) (target : List Char) : (build ids).hits target =
    ((build ids).keys.filter fun k => target.isPrefixOf k.key).take (maxCandidates + 1) := by
  have starts (k : Indexed) (begins : target <+: k.key) : (order ⟨target, ""⟩ k).isLE := by
    have below := compare_prefix begins
    rw [order, compareLex, compareOn]
    cases order : compare target k.key with
    | lt => simp
    | eq =>
      cases least : compare "" k.id with
      | gt => simpa using String.lt_iff_toList_lt.1 (compare_gt_iff_gt.1 least)
      | _ => simp [compareOn, least]
    | gt => simp [order] at below
  rw [hits, takeWhile_eq_filter, filter_filter]
  · congr 2
    funext k
    by_cases begins : target <+: k.key
    · simp [starts k begins]
    · simp [begins]
  · refine ((sorted_build ids).filter _).imp_of_mem fun {a b} mem _ le begins => ?_
    have low : (order ⟨target, ""⟩ a).isLE := by simpa using (mem_filter.1 mem).2
    refine isPrefixOf_iff_prefix.2 ?_
    have begins := isPrefixOf_iff_prefix.1 begins
    exact prefix_between prefix_rfl begins (isLE_key low) (isLE_key le)

/-- The id that a ref names: it is the ref, or the only one that ends with it. -/
structure Names (ids : List NodeId) (r : Ref) (id : NodeId) : Prop where
  mem : id ∈ ids
  isAddressable : addressable id
  only : upper r.text = upper id ∨ (upper r.text <:+ upper id ∧
    ∀ other ∈ ids, addressable other → upper r.text <:+ upper other → other = id)

theorem names_iff : Names ids r id ↔
    ∃ k ∈ (build ids).keys, k.id = id ∧ (k.key = reversedUpper r.text ∨
      (reversedUpper r.text <+: k.key ∧ ∀ k' ∈ (build ids).keys,
        reversedUpper r.text <+: k'.key → k'.id = id)) := by
  constructor
  · rintro ⟨mem, isAddressable, only⟩
    refine ⟨indexed id, mem_build.2 ⟨id, mem, isAddressable, rfl⟩, rfl,
      only.imp (fun same => ?_) fun only => ?_⟩
    · rw [indexed, reversedUpper, reversedUpper, same]
    · have begins := reverse_prefix.2 only.1
      refine ⟨begins, fun k' inside begins' => ?_⟩
      obtain ⟨other, mem', isAddressable', rfl⟩ := mem_build.1 inside
      have ends := reverse_prefix.1 begins'
      exact only.2 other mem' isAddressable' ends
  · rintro ⟨k, inside, rfl, only⟩
    obtain ⟨id, mem, isAddressable, rfl⟩ := mem_build.1 inside
    refine ⟨mem, isAddressable, only.imp (fun same => (reverse_injective same).symm) fun only => ?_⟩
    have ends := reverse_prefix.1 only.1
    refine ⟨ends, fun other mem' isAddressable' ends' => ?_⟩
    have begins := reverse_prefix.2 ends'
    exact only.2 _ (mem_build.2 ⟨other, mem', isAddressable', rfl⟩) begins

theorem resolve_eq_ok (apart : Apart ids) :
    (build ids).resolve r = .ok id ↔ Names ids r id := by
  have distinct : (build ids).keys.Nodup := (sortBy_perm ..).nodup_iff.2 (nodup_dedup _)
  rw [names_iff, resolve, hits_eq]
  generalize reversedUpper r.text = target
  obtain ⟨found, isFound⟩ : ∃ found, found = (build ids).keys.filter fun k =>
    target.isPrefixOf k.key := ⟨_, rfl⟩
  have mem_found {k : Indexed} : k ∈ found ↔ k ∈ (build ids).keys ∧ target <+: k.key := by
    simp [isFound]
  rw [← isFound]
  constructor
  · intro resolved
    split at resolved
    · rename_i k first
      cases resolved
      have inside := mem_found.1 (mem_of_mem_take (mem_of_find?_eq_some first))
      exact ⟨k, inside.1, rfl, .inl (by simpa using find?_some first)⟩
    · split at resolved
      · contradiction
      · rename_i k single
        cases resolved
        have all : found = [k] := by
          have one := congrArg List.length single
          simp only [length_take, length_singleton, maxCandidates] at one
          rwa [take_of_length_le (by simp only [maxCandidates]; omega)] at single
        have inside := mem_found.1 (all ▸ mem_singleton_self k)
        refine ⟨k, inside.1, rfl, .inr ⟨inside.2, fun k' mem begins => ?_⟩⟩
        have same : k' ∈ [k] := all ▸ mem_found.2 ⟨mem, begins⟩
        rw [mem_singleton.1 same]
      · contradiction
  · rintro ⟨k, inside, rfl, named⟩
    -- The id itself stands first, before all that end with it.
    have first : ∃ rest, found = k :: rest ∧ (k.key = target ∨ rest = []) := by
      have isFound' : k ∈ found := mem_found.2 ⟨inside, named.elim (· ▸ prefix_rfl) And.left⟩
      obtain ⟨top, isTop, le⟩ := head_le (isFound ▸ (sorted_build ids).filter _) isFound'
      obtain ⟨rest, same⟩ := head?_eq_some_iff.1 isTop
      have top_ := mem_found.1 (mem_of_head? isTop)
      rcases named with full | ⟨-, only⟩
      · have isLeast := isLE_key le
        have least := compare_prefix top_.2
        rw [full] at isLeast
        have eq := Std.compare_eq_iff_eq.1 (isLE_antisymm least isLeast)
        exact ⟨rest, apart.key_injective top_.1 inside (eq.symm.trans full.symm) ▸ same, .inl full⟩
      · have only' (k' : Indexed) (mem : k' ∈ found) : k' = k := by
          obtain ⟨a, -, -, rfl⟩ := mem_build.1 (mem_found.1 mem).1
          obtain ⟨b, -, -, rfl⟩ := mem_build.1 inside
          exact congrArg indexed (only _ (mem_found.1 mem).1 (mem_found.1 mem).2)
        obtain rfl := only' top (mem_of_head? isTop)
        refine ⟨rest, same, .inr (eq_nil_iff_forall_not_mem.2 fun k' mem => ?_)⟩
        have nodup : (top :: rest).Nodup := same ▸ isFound ▸ distinct.filter _
        exact (nodup_cons.1 nodup).1 (only' k' (by simp [same, mem]) ▸ mem)
    obtain ⟨rest, same, full | alone⟩ := first
    · rw [same]
      simp [full]
    · rw [same, alone]
      by_cases full : k.key = target <;> simp [full]

/-- Every addressable node has a ref that names it and is as short as can be, and a ref names the
node whose id it is or, failing that, the one node whose id ends with it. -/
theorem refs_name_one_node (ids : List NodeId) (apart : Apart ids) :
    (∀ id ∈ ids, addressable id → ∃ r, (RefIndex.build ids).refOf id = some r ∧
      (RefIndex.build ids).resolve r = .ok id ∧ Shortest ids id r.text.toList) ∧
    ∀ r id, (RefIndex.build ids).resolve r = .ok id ↔ Names ids r id := by
  refine ⟨fun id mem isAddressable => ?_, fun r id => resolve_eq_ok apart⟩
  obtain ⟨r, made, shortest⟩ := shortest_refOf apart mem isAddressable
  refine ⟨r, made, (resolve_eq_ok apart).2 ⟨mem, isAddressable, ?_⟩, shortest⟩
  -- A suffix of an id in capitals is in capitals.
  have capital : upper r.text = r.text.toList := by
    conv => rhs; rw [← map_id r.text.toList]
    refine map_congr_left fun c inside => ?_
    obtain ⟨d, -, rfl⟩ := mem_map.1 (shortest.suffix.subset inside)
    exact toUpper_toUpper d
  rw [capital]
  refine shortest.own.imp_right fun own => ⟨shortest.suffix, fun other mem' isAddressable' ends => ?_⟩
  by_contra differ
  exact own other mem' isAddressable' differ ends

theorem refs_of_three_ids : let ids := ["01ARZ3NDEK", "02BXY3ndek", "NDEK"]
    (RefIndex.build ids).refOf "02BXY3ndek" = some ⟨"Y3NDEK"⟩ ∧
    (RefIndex.build ids).resolve ⟨"NDEK"⟩ = .ok "NDEK" ∧
    ∃ r, (RefIndex.build ids).refOf "01ARZ3NDEK" = some r ∧
      (RefIndex.build ids).resolve r = .ok "01ARZ3NDEK" := by
  refine ⟨by decide +kernel, by decide +kernel, ?_⟩
  obtain ⟨r, made, named, -⟩ := (refs_name_one_node ["01ARZ3NDEK", "02BXY3ndek", "NDEK"]
    (by unfold Apart; decide +kernel)).1 "01ARZ3NDEK" (by simp) (by decide +kernel)
  exact ⟨r, made, named⟩

end Index

end Dynodoc.Agent
