import Mathlib.Data.List.Chain
import Std.Data.ExtTreeMap
import Dynodoc.Authority.Statement

/-! The epochs of a receipt authority: a chain of statements that each lead from one key to the
next, and what a client that trusts one key may accept. -/
namespace Dynodoc.Authority
open Std (ExtTreeMap)
open Log (Uuid)
open Loop List Nat

variable {key key' : String} {statements : List SignedTransition} {epoch : Nat}
  {previous : Option Transition} {authority : Uuid}

variable {Address : Type} {env : Externals Address}

/-- One statement takes up where the other ends. -/
def Follows (s next : SignedTransition) : Prop :=
  next.transition.fromEpoch = s.transition.toEpoch ∧ next.transition.oldKey = s.transition.newKey

def keysOf : List SignedTransition → List String
  | [] => []
  | s :: rest => s.transition.oldKey :: (s :: rest).map fun s => s.transition.newKey

/-- A contiguous run of verified statements in which no key comes back. -/
structure Chain (env : Externals Address) where
  authority : Uuid
  statements : List SignedTransition
  verified : ∀ s ∈ statements, ∃ address, s.verify env = .ok address
  named : ∀ s ∈ statements, s.transition.authority = authority
  linked : statements.IsChain Follows
  distinct : (keysOf statements).Nodup

/-- The keys named before a new one: those before it, or the old key of the first statement. -/
def keysBefore (previous : Option Transition) (keys : List String) (t : Transition) : List String :=
  if previous.isNone then [t.oldKey] else keys

def checkLink (env : Externals Address) (authority : Uuid) (previous : Option Transition)
    (keys : List String) (s : SignedTransition) : Except Error (List String) := do
  let _ ← s.verify env
  if s.transition.authority ≠ authority then .error (.invalid "authority chain identity")
  else if previous.any fun p => s.transition.fromEpoch ≠ p.toEpoch ∨ s.transition.oldKey ≠ p.newKey then
    .error (.invalid "authority chain linkage")
  else if s.transition.newKey ∈ keysBefore previous keys s.transition then
    .error (.invalid "authority key reused")
  else .ok (keysBefore previous keys s.transition ++ [s.transition.newKey])

def checkLinks (env : Externals Address) (authority : Uuid) :
    Option Transition → List String → List SignedTransition → Except Error Unit
  | _, _, [] => .ok ()
  | previous, keys, s :: rest => do
    let keys ← checkLink env authority previous keys s
    checkLinks env authority (some s.transition) keys rest

theorem checkLink_eq_ok {keys after : List String}
    {s : SignedTransition} : checkLink env authority previous keys s = .ok after ↔
      (∃ address, s.verify env = .ok address) ∧ s.transition.authority = authority ∧
      (∀ p ∈ previous, s.transition.fromEpoch = p.toEpoch ∧ s.transition.oldKey = p.newKey) ∧
      s.transition.newKey ∉ keysBefore previous keys s.transition ∧
      keysBefore previous keys s.transition ++ [s.transition.newKey] = after := by
  rw [checkLink, bind_eq_ok]
  constructor
  · rintro ⟨address, verified, checked⟩
    obtain ⟨named, checked⟩ := guard_eq_ok.1 checked
    obtain ⟨linked, checked⟩ := guard_eq_ok.1 checked
    obtain ⟨new, checked⟩ := guard_eq_ok.1 checked
    refine ⟨⟨address, verified⟩, not_not.1 named, fun p isPrevious => ?_, new, Except.ok.inj checked⟩
    rw [Option.mem_def.1 isPrevious] at linked
    simpa using linked
  · rintro ⟨⟨address, verified⟩, named, linked, new, same⟩
    refine ⟨address, verified, ?_⟩
    have fine : ¬ previous.any (fun p =>
        s.transition.fromEpoch ≠ p.toEpoch ∨ s.transition.oldKey ≠ p.newKey) = true := by
      cases previous with
      | none => simp
      | some p => simpa using linked p rfl
    rw [if_neg (not_not.2 named), if_neg fine, if_neg new, same]

structure Checked (env : Externals Address) (authority : Uuid) (previous : Option Transition)
    (keys : List String) (statements : List SignedTransition) : Prop where
  verified : ∀ s ∈ statements, ∃ address, s.verify env = .ok address
  named : ∀ s ∈ statements, s.transition.authority = authority
  linked : statements.IsChain Follows
  first : ∀ s ∈ statements.head?, (∀ p ∈ previous, s.transition.fromEpoch = p.toEpoch ∧
      s.transition.oldKey = p.newKey) ∧
    (keysBefore previous keys s.transition ++ statements.map fun s => s.transition.newKey).Nodup

theorem checked_of_checkLinks {keys : List String} (seen : keys.Nodup)
    (checked : checkLinks env authority previous keys statements = .ok ()) :
    Checked env authority previous keys statements := by
  induction statements generalizing previous keys with
  | nil => exact ⟨by simp, by simp, .nil, by simp⟩
  | cons s rest ih =>
    obtain ⟨after, link, checked⟩ := bind_eq_ok.1 checked
    obtain ⟨verified, named, linked, new, rfl⟩ := checkLink_eq_ok.1 link
    have before : (keysBefore previous keys s.transition).Nodup := by
      rw [keysBefore]
      split
      · exact nodup_singleton _
      · exact seen
    have extended := by simpa using before.concat new
    have tail := ih extended checked
    refine ⟨forall_mem_cons.2 ⟨verified, tail.verified⟩, forall_mem_cons.2 ⟨named, tail.named⟩,
      ?_, ?_⟩
    · refine isChain_cons.2 ⟨fun next isNext => ?_, tail.linked⟩
      exact (tail.first next isNext).1 s.transition rfl
    · rintro _ ⟨⟩
      refine ⟨linked, ?_⟩
      cases rest with
      | nil => simpa using extended
      | cons next rest =>
        have all := (tail.first next rfl).2
        rw [keysBefore] at all
        simpa using all

def Chain.new (env : Externals Address) (authority : Uuid) (statements : List SignedTransition) :
    Except Error (Chain env) :=
  if statements.length ≥ maxEpoch then .error (.limit "authority chain")
  else
    match checks : checkLinks env authority none [] statements with
    | .error e => .error e
    | .ok () =>
      let checked := checked_of_checkLinks nodup_nil checks
      .ok ⟨authority, statements, checked.verified, checked.named, checked.linked, by
        cases statements with
        | nil => exact nodup_nil
        | cons s rest => exact (checked.first s rfl).2⟩

inductive PathError where
  | unknownKey
  | backwards
  | broken (toEpoch : Nat) (reason : String)
  deriving DecidableEq

namespace Chain

variable (chain : Chain env)

def epochOf (key : String) : Option Nat :=
  chain.statements.findSome? fun s =>
    if s.transition.oldKey = key then some s.transition.fromEpoch
    else if s.transition.newKey = key then some s.transition.toEpoch
    else none

def position (epoch : Nat) : Nat :=
  (chain.statements.findIdx? fun s => s.transition.fromEpoch = epoch).getD chain.statements.length

def path (fromKey toKey : String) : Except PathError (List SignedTransition) :=
  match chain.epochOf fromKey, chain.epochOf toKey with
  | some start, some stop =>
    if stop < start then .error .backwards
    else
      let path := (chain.statements.take (max (chain.position stop) (chain.position start))).drop
        (chain.position start)
      match path.find? fun s => s.transition.kind = .recovery with
      | some s => .error (.broken s.transition.toEpoch s.transition.reason)
      | none => .ok path
  | _, _ => .error .unknownKey

end Chain

structure Revocation where
  epoch : Nat
  effectiveAtMs : Int
  recordedAtMs : Int
  reason : String
  deriving DecidableEq

inductive Refusal where
  | unknownKey
  | backwards
  | broken (toEpoch : Nat) (reason : String)
  | revoked (marker : Revocation) (own : Bool)
  deriving DecidableEq

def PathError.refusal : PathError → Refusal
  | .unknownKey => .unknownKey
  | .backwards => .backwards
  | .broken toEpoch reason => .broken toEpoch reason

/-- What a server claims: the active key is where its statements lead. -/
structure Served (env : Externals Address) where
  chain : Chain env
  activeKey : String
  activeEpoch : Nat
  revoked : ExtTreeMap Nat Revocation
  last : ∀ s ∈ chain.statements.getLast?, s.transition.newKey = activeKey ∧
    s.transition.toEpoch = activeEpoch
  first : chain.statements = [] → activeEpoch = 1
  marked : ∀ marker ∈ revoked.toList, marker.1 = marker.2.epoch ∧ marker.1 ≤ activeEpoch

def Served.new (chain : Chain env) (activeKey : String) (activeEpoch : Nat)
    (revoked : ExtTreeMap Nat Revocation) : Except Error (Served env) := do
  let _ ← unhex activeKey 32
  if last : ∀ s ∈ chain.statements.getLast?, s.transition.newKey = activeKey ∧
      s.transition.toEpoch = activeEpoch then
    if first : chain.statements = [] → activeEpoch = 1 then
      if marked : ∀ marker ∈ revoked.toList, marker.1 = marker.2.epoch ∧ marker.1 ≤ activeEpoch then
        .ok ⟨chain, activeKey, activeEpoch, revoked, last, first, marked⟩
      else .error (.invalid "served revocation marker")
    else .error (.invalid "served epoch lacks its statements")
  else .error (.invalid "served active epoch differs from its chain")

namespace Served

variable (served : Served env)

def epochOf (key : String) : Option Nat :=
  if key = served.activeKey then some served.activeEpoch else served.chain.epochOf key

def vet (trusted key : String) : Except Refusal Unit :=
  match served.epochOf trusted, served.epochOf key with
  | some start, some stop =>
    if stop < start then .error .backwards
    else
      match served.revoked.toList.find? fun marker => start ≤ marker.1 with
      | some (epoch, marker) => .error (.revoked marker (epoch = start))
      | none =>
        if start < stop then
          match served.chain.path trusted key with
          | .error e => .error e.refusal
          | .ok _ => .ok ()
        else .ok ()
  | _, _ => .error .unknownKey

end Served

section Places

variable (chain : Chain env)

def Chain.start : Nat := (chain.statements.head?.map fun s => s.transition.fromEpoch).getD 1

variable {chain}

theorem keysOf_getElem_succ {i : Nat} {s : SignedTransition}
    (here : statements[i]? = some s) : (keysOf statements)[i + 1]? = some s.transition.newKey := by
  cases statements with
  | nil => simp at here
  | cons first rest => rw [keysOf, getElem?_cons_succ, getElem?_map, here]; rfl

/-- Statement `i` leads from key `i` to the next and leaves the epoch of key `i`. -/
structure Chain.At (chain : Chain env) (i : Nat) (s : SignedTransition) : Prop where
  old : (keysOf chain.statements)[i]? = some s.transition.oldKey
  new : (keysOf chain.statements)[i + 1]? = some s.transition.newKey
  leaves : s.transition.fromEpoch = chain.start + i
  enters : s.transition.toEpoch = chain.start + i + 1

theorem Chain.at {i : Nat} {s : SignedTransition} (here : chain.statements[i]? = some s) :
    chain.At i s := by
  obtain ⟨address, verified⟩ := chain.verified s (mem_of_getElem? here)
  have enters := SignedTransition.epochs verified
  have new := keysOf_getElem_succ here
  cases i with
  | zero =>
    have leaves : s.transition.fromEpoch = chain.start := by
      rw [Chain.start, head?_eq_getElem?, here]
      rfl
    refine ⟨?_, new, leaves, by omega⟩
    cases statements : chain.statements with
    | nil => simp [statements] at here
    | cons first rest =>
      rw [statements, getElem?_cons_zero] at here
      cases here
      rfl
  | succ i =>
    obtain ⟨inside, same⟩ := List.getElem?_eq_some_iff.1 here
    have before : chain.statements[i]? = some chain.statements[i] := getElem?_eq_getElem _
    have follows := isChain_iff_getElem.1 chain.linked i inside
    rw [same] at follows
    have leaves : s.transition.fromEpoch = chain.start + (i + 1) := by
      have previous := (Chain.at before).enters
      rw [follows.1, previous]
      omega
    exact ⟨by rw [follows.2, keysOf_getElem_succ before], new, leaves, by omega⟩
termination_by i

theorem exists_statement (mem : key ∈ keysOf chain.statements) :
    ∃ s ∈ chain.statements, s.transition.oldKey = key ∨ s.transition.newKey = key := by
  cases statements : chain.statements with
  | nil => simp [statements, keysOf] at mem
  | cons first rest =>
    rw [statements, keysOf, mem_cons, mem_map] at mem
    rcases mem with rfl | ⟨s, mem, rfl⟩
    · exact ⟨first, by simp, .inl rfl⟩
    · exact ⟨s, mem, .inr rfl⟩

variable {i j : Nat}

theorem place_unique (here : (keysOf chain.statements)[i]? = some key)
    (there : (keysOf chain.statements)[j]? = some key) : i = j :=
  (getElem?_inj (List.getElem?_eq_some_iff.1 here).1 chain.distinct).1 (here.trans there.symm)

theorem chain_epochOf : chain.epochOf key = some epoch ↔
    ∃ i, (keysOf chain.statements)[i]? = some key ∧ epoch = chain.start + i := by
  have found {epoch : Nat} (read : chain.epochOf key = some epoch) :
      ∃ i, (keysOf chain.statements)[i]? = some key ∧ epoch = chain.start + i := by
    obtain ⟨s, mem, read⟩ := exists_of_findSome?_eq_some read
    obtain ⟨i, here⟩ := mem_iff_getElem?.1 mem
    have place := Chain.at here
    split at read
    · rename_i old
      exact ⟨i, by rw [place.old, old], by rw [← Option.some.inj read, place.leaves]⟩
    · split at read
      · rename_i new
        exact ⟨i + 1, by rw [place.new, new], by rw [← Option.some.inj read, place.enters]; omega⟩
      · contradiction
  refine ⟨found, ?_⟩
  rintro ⟨i, here, rfl⟩
  obtain ⟨s, mem, names⟩ := exists_statement (mem_of_getElem? here)
  have isKnown : (chain.epochOf key).isSome := by
    rw [Chain.epochOf, findSome?_isSome_iff]
    refine ⟨s, mem, ?_⟩
    split
    · rfl
    rename_i other
    rw [if_pos (names.resolve_left other)]
    rfl
  obtain ⟨epoch, read⟩ := Option.isSome_iff_exists.1 isKnown
  obtain ⟨j, there, rfl⟩ := found read
  rw [read, place_unique here there]

theorem position_eq {i : Nat} (inside : i ≤ chain.statements.length) :
    chain.position (chain.start + i) = i := by
  have leaves {j : Nat} (lt : j < chain.statements.length) :
      chain.statements[j].transition.fromEpoch = chain.start + j :=
    (Chain.at (getElem?_eq_getElem lt)).leaves
  rw [Chain.position]
  rcases lt_or_eq_of_le inside with lt | rfl
  · have found : (chain.statements.findIdx? fun s => s.transition.fromEpoch = chain.start + i) =
      some i := by
      rw [findIdx?_eq_some_iff_getElem]
      refine ⟨lt, decide_eq_true (leaves lt), fun j before => ?_⟩
      have := leaves (lt_trans before lt)
      simp
      omega
    rw [found]
    rfl
  · have absent : (chain.statements.findIdx? fun s =>
        s.transition.fromEpoch = chain.start + chain.statements.length) = none := by
      rw [findIdx?_eq_none_iff]
      intro s mem
      obtain ⟨j, lt, rfl⟩ := getElem_of_mem mem
      have := leaves lt
      simp
      omega
    rw [absent]
    rfl

def Chain.between (chain : Chain env) (i j : Nat) : List SignedTransition :=
  (chain.statements.take j).drop i

theorem keysOf_length (some : statements ≠ []) :
    (keysOf statements).length = statements.length + 1 := by
  cases statements with
  | nil => contradiction
  | cons first rest => simp [keysOf]

theorem place_le {i : Nat} (here : (keysOf chain.statements)[i]? = some key) :
    i ≤ chain.statements.length := by
  have lt := (List.getElem?_eq_some_iff.1 here).1
  have some : chain.statements ≠ [] := by
    intro empty
    simp [empty, keysOf] at lt
  rw [keysOf_length some] at lt
  omega

section Between

variable (here : (keysOf chain.statements)[i]? = some key)
  (there : (keysOf chain.statements)[j]? = some key')
include here there

variable {path : List SignedTransition}

/-- A path is what lies between the places of two keys, without a break. -/
theorem path_eq_ok (le : i ≤ j) : chain.path key key' = .ok path ↔
      path = chain.between i j ∧ ∀ s ∈ path, s.transition.kind = .rotation := by
  have unbroken : (chain.between i j).find? (fun s => s.transition.kind = .recovery) = none ↔
      ∀ s ∈ chain.between i j, s.transition.kind = .rotation := by
    rw [find?_eq_none]
    refine forall₂_congr fun s _ => ?_
    cases s.transition.kind <;> simp
  rw [Chain.path, chain_epochOf.2 ⟨i, here, rfl⟩, chain_epochOf.2 ⟨j, there, rfl⟩]
  dsimp only
  rw [if_neg (by omega), position_eq (place_le here), position_eq (place_le there), max_eq_left le,
    ← Chain.between]
  constructor
  · intro read
    split at read
    · contradiction
    · cases read
      exact ⟨rfl, unbroken.1 ‹_›⟩
  · rintro ⟨rfl, rotations⟩
    rw [unbroken.2 rotations]

/-- A nonempty run of consecutive statements is what lies between the places of its two ends. -/
theorem between_of_consecutive
    (consecutive : path <:+: chain.statements)
    (old : (path.head?.map fun s => s.transition.oldKey) = some key)
    (new : (path.getLast?.map fun s => s.transition.newKey) = some key') :
    i < j ∧ chain.between i j = path := by
  obtain ⟨before, after, whole⟩ := consecutive
  obtain ⟨first, isFirst, rfl⟩ := Option.map_eq_some_iff.1 old
  obtain ⟨last, isLast, rfl⟩ := Option.map_eq_some_iff.1 new
  have positive : 0 < path.length := by
    cases path with
    | nil => simp at isFirst
    | cons s rest => simp
  have start : chain.statements[before.length]? = some first := by
    rw [← whole, append_assoc, getElem?_append_right (Nat.le_refl _), Nat.sub_self,
      getElem?_append_left positive, ← head?_eq_getElem?, isFirst]
  have stop : chain.statements[before.length + (path.length - 1)]? = some last := by
    rw [← whole, append_assoc, getElem?_append_right (Nat.le_add_right _ _),
      Nat.add_sub_cancel_left, getElem?_append_left (by omega), ← getLast?_eq_getElem?, isLast]
  have left := place_unique here (Chain.at start).old
  have right := place_unique there (Chain.at stop).new
  refine ⟨by omega, ?_⟩
  have length : j = (before ++ path).length := by
    rw [length_append]
    omega
  rw [Chain.between, ← whole, length, take_left, left, drop_left]

theorem between_ends (lt : i < j) :
    ((chain.between i j).head?.map fun s => s.transition.oldKey) = some key ∧
      ((chain.between i j).getLast?.map fun s => s.transition.newKey) = some key' := by
  have le := place_le there
  obtain ⟨n, rfl⟩ : ∃ n, j = n + 1 := ⟨j - 1, by omega⟩
  have start : chain.statements[i]? = some chain.statements[i] := getElem?_eq_getElem _
  have stop : chain.statements[n]? = some chain.statements[n] := getElem?_eq_getElem _
  constructor
  · have first : (chain.between i (n + 1)).head? = some chain.statements[i] := by
      rw [Chain.between, head?_drop, getElem?_take_of_lt lt, start]
    rw [first, Option.map_some, ← here, (Chain.at start).old]
  · have last : (chain.between i (n + 1)).getLast? = some chain.statements[n] := by
      have inside : ¬ (chain.statements.take (n + 1)).length ≤ i := by
        rw [length_take_of_le le]
        omega
      rw [Chain.between, getLast?_drop, if_neg inside, getLast?_take, if_neg (by omega),
        Nat.add_sub_cancel, stop, Option.some_or]
    rw [last, Option.map_some, ← there, (Chain.at stop).new]

end Between

theorem between_append {i j k : Nat} (le : i ≤ j) (le' : j ≤ k) :
    chain.between i k = chain.between i j ++ chain.between j k := by
  have split : k - i = j - i + (k - j) := by omega
  simp only [Chain.between, drop_take]
  rw [split, take_add, drop_drop, Nat.add_sub_of_le le]

theorem between_consecutive (i j : Nat) : chain.between i j <:+: chain.statements := by
  have front := take_prefix j chain.statements
  exact (drop_suffix i _).isInfix.trans front.isInfix

end Places

section Vetting

variable (served : Served env)

/-- A key that the served state names, and its epoch. -/
def Served.Epoch (key : String) (epoch : Nat) : Prop :=
  (key = served.activeKey ∧ epoch = served.activeEpoch) ∨ ∃ s ∈ served.chain.statements,
    (s.transition.oldKey = key ∧ epoch = s.transition.fromEpoch) ∨
      (s.transition.newKey = key ∧ epoch = s.transition.toEpoch)

/-- Consecutive statements that both their keys signed lead from one key to another. -/
def Served.Leads (key key' : String) : Prop :=
  ∃ path, path <:+: served.chain.statements ∧
    (path.head?.map fun s => s.transition.oldKey) = some key ∧
    (path.getLast?.map fun s => s.transition.newKey) = some key' ∧
    ∀ s ∈ path, s.transition.kind = .rotation ∧ s.SignedByBoth env

variable {served}

theorem active_place (some_ : served.chain.statements ≠ []) :
    (keysOf served.chain.statements)[served.chain.statements.length]? = some served.activeKey ∧
      served.activeEpoch = served.chain.start + served.chain.statements.length := by
  have isLast := getLast?_eq_some_getLast some_
  have positive := length_pos_of_ne_nil some_
  obtain ⟨active, epoch⟩ := served.last _ isLast
  rw [getLast?_eq_getElem?] at isLast
  have place := Chain.at isLast
  have back : served.chain.statements.length - 1 + 1 = served.chain.statements.length := by omega
  constructor
  · rw [← active, ← place.new, back]
  · rw [← epoch, place.enters]
    omega

theorem chain_names (some_ : served.chain.statements ≠ []) :
    served.Epoch key epoch ↔ served.chain.epochOf key = some epoch := by
  rw [chain_epochOf]
  constructor
  · rintro (⟨rfl, rfl⟩ | ⟨s, mem, names⟩)
    · exact ⟨_, active_place some_⟩
    · obtain ⟨i, here⟩ := mem_iff_getElem?.1 mem
      have place := Chain.at here
      rcases names with ⟨rfl, rfl⟩ | ⟨rfl, rfl⟩
      · exact ⟨i, place.old, place.leaves⟩
      · exact ⟨i + 1, place.new, place.enters⟩
  · rintro ⟨i, here, rfl⟩
    obtain ⟨s, mem, names⟩ := exists_statement (mem_of_getElem? here)
    obtain ⟨k, there⟩ := mem_iff_getElem?.1 mem
    have place := Chain.at there
    refine .inr ⟨s, mem, ?_⟩
    rcases names with rfl | rfl
    · rw [place_unique here place.old]
      exact .inl ⟨rfl, place.leaves.symm⟩
    · rw [place_unique here place.new]
      exact .inr ⟨rfl, place.enters.symm⟩

theorem served_epochOf : served.epochOf key = some epoch ↔ served.Epoch key epoch := by
  by_cases empty : served.chain.statements = []
  · rw [Served.epochOf, Served.Epoch, Chain.epochOf, empty]
    simp [eq_comm]
  · rw [chain_names empty, Served.epochOf]
    split
    · rename_i active
      rw [active, chain_epochOf.2 ⟨_, active_place empty⟩]
    · rfl

theorem unmarked {start : Nat} :
    (served.revoked.toList.find? fun marker => start ≤ marker.1) = none ↔
      ∀ epoch, start ≤ epoch → epoch ≤ served.activeEpoch → epoch ∉ served.revoked := by
  rw [find?_eq_none]
  constructor
  · intro none epoch after _ mem
    obtain ⟨marker, read⟩ := Option.isSome_iff_exists.1 (ExtTreeMap.isSome_getElem?_iff_mem.2 mem)
    exact none (epoch, marker) (ExtTreeMap.mem_toList_iff_getElem?_eq_some.2 read) (decide_eq_true after)
  · intro none marker mem after
    have read := ExtTreeMap.mem_toList_iff_getElem?_eq_some.1 mem
    have isMarked := ExtTreeMap.isSome_getElem?_iff_mem.1 (Option.isSome_iff_exists.2 ⟨_, read⟩)
    exact none marker.1 (of_decide_eq_true after) (served.marked marker mem).2 isMarked

variable {start stop : Nat}

theorem places_of_lt (old : served.Epoch key start) (new : served.Epoch key' stop)
    (lt : start < stop) : ∃ i j : Nat, (keysOf served.chain.statements)[i]? = some key ∧
      (keysOf served.chain.statements)[j]? = some key' ∧ i < j := by
  have some_ : served.chain.statements ≠ [] := by
    intro empty
    simp only [Served.Epoch, empty, not_mem_nil, false_and, exists_false, or_false] at old new
    omega
  obtain ⟨i, here, rfl⟩ := chain_epochOf.1 ((chain_names some_).1 old)
  obtain ⟨j, there, rfl⟩ := chain_epochOf.1 ((chain_names some_).1 new)
  exact ⟨i, j, here, there, by omega⟩

/-- When two keys have epochs one after the other, both stand in the chain, and statements of both
keys lead from the one to the other just when the path is unbroken. -/
theorem leads_iff (old : served.Epoch key start)
    (new : served.Epoch key' stop) (lt : start < stop) :
    served.Leads key key' ↔ ∃ path, served.chain.path key key' = .ok path := by
  obtain ⟨i, j, here, there, lt⟩ := places_of_lt old new lt
  simp only [path_eq_ok here there lt.le, exists_eq_left]
  constructor
  · rintro ⟨path, consecutive, first, last, rotations⟩
    rw [(between_of_consecutive here there consecutive first last).2]
    exact fun s mem => (rotations s mem).1
  · intro rotations
    have ends := between_ends here there lt
    refine ⟨_, between_consecutive i j, ends.1, ends.2, fun s mem => ⟨rotations s mem, ?_⟩⟩
    obtain ⟨address, verified⟩ := served.chain.verified s ((between_consecutive i j).subset mem)
    exact SignedTransition.signedByBoth verified (rotations s mem)

theorem lt_of_leads (old : served.Epoch key start)
    (new : served.Epoch key' stop) (leads : served.Leads key key') : start < stop := by
  obtain ⟨path, consecutive, first, last, -⟩ := leads
  have some_ : served.chain.statements ≠ [] := by
    intro empty
    rw [empty, infix_nil] at consecutive
    simp [consecutive] at first
  obtain ⟨i, here, rfl⟩ := chain_epochOf.1 ((chain_names some_).1 old)
  obtain ⟨j, there, rfl⟩ := chain_epochOf.1 ((chain_names some_).1 new)
  have := (between_of_consecutive here there consecutive first last).1
  omega

theorem same_key (this : served.Epoch key epoch)
    (other : served.Epoch key' epoch) : key = key' := by
  by_cases empty : served.chain.statements = []
  · simp only [Served.Epoch, empty, not_mem_nil, false_and, exists_false, or_false] at this other
    rw [this.1, other.1]
  · obtain ⟨i, here, place⟩ := chain_epochOf.1 ((chain_names empty).1 this)
    obtain ⟨j, there, rfl⟩ := chain_epochOf.1 ((chain_names empty).1 other)
    have same : j = i := by omega
    rw [same, here] at there
    exact Option.some.inj there

theorem same_epoch {epoch' : Nat} (this : served.Epoch key epoch)
    (other : served.Epoch key epoch') : epoch = epoch' :=
  Option.some.inj ((served_epochOf.2 this).symm.trans (served_epochOf.2 other))

/-- A key that vetting accepts is the trusted one or at the end of a path from it. -/
theorem vet_ok {trusted : String} (accepted : served.vet trusted key = .ok ()) :
    ∃ start stop, served.Epoch trusted start ∧ served.Epoch key stop ∧
      (trusted = key ∨ start < stop ∧ ∃ path, served.chain.path trusted key = .ok path) ∧
      (served.revoked.toList.find? fun marker => start ≤ marker.1) = none := by
  unfold Served.vet at accepted
  split at accepted
  · rename_i start stop old new
    rw [served_epochOf] at old new
    obtain ⟨forward, accepted⟩ := guard_eq_ok.1 accepted
    split at accepted
    · contradiction
    rename_i none
    refine ⟨start, stop, old, new, ?_, none⟩
    split at accepted
    · rename_i lt
      split at accepted
      · contradiction
      rename_i path found
      exact .inr ⟨lt, path, found⟩
    · have same : start = stop := by omega
      subst same
      exact .inl (same_key old new)
  · contradiction

/-- Vetting accepts exactly a key that the trusted one leads to by statements of both keys, when
no epoch from the trusted key on is revoked. -/
theorem vet_is_exact (env : Externals Address) (served : Served env) (trusted key : String) :
    served.vet trusted key = .ok () ↔ ∃ start stop, served.Epoch trusted start ∧
      served.Epoch key stop ∧ (trusted = key ∨ served.Leads trusted key) ∧
      ∀ epoch, start ≤ epoch → epoch ≤ served.activeEpoch → epoch ∉ served.revoked := by
  constructor
  · intro accepted
    obtain ⟨start, stop, old, new, way, none⟩ := vet_ok accepted
    refine ⟨start, stop, old, new, way.imp_right ?_, unmarked.1 none⟩
    rintro ⟨lt, found⟩
    exact (leads_iff old new lt).2 found
  · rintro ⟨start, stop, old, new, leads, none⟩
    unfold Served.vet
    rw [served_epochOf.2 old, served_epochOf.2 new]
    dsimp only
    rcases leads with rfl | leads
    · rw [same_epoch new old, if_neg (lt_irrefl _), unmarked.2 none]
      rw [if_neg (lt_irrefl _)]
    · have lt := lt_of_leads old new leads
      obtain ⟨path, found⟩ := (leads_iff old new lt).1 leads
      rw [if_neg (by omega), unmarked.2 none]
      dsimp only
      rw [if_pos lt, found]

/-- Vetting orders the keys: what a vetted key vouches for is vetted itself, and no two keys are
vetted for each other. -/
theorem vetting_orders_keys (env : Externals Address) (served : Served env) :
    IsTrans String (fun trusted key => served.vet trusted key = .ok ()) ∧
      Std.Antisymm fun trusted key => served.vet trusted key = .ok () := by
  constructor <;> constructor
  · intro a b c first second
    obtain ⟨start, middle, old, new, way, none⟩ := vet_ok first
    obtain ⟨_, stop, new', last, way', -⟩ := vet_ok second
    obtain rfl := same_epoch new new'
    rcases way with rfl | ⟨lt, path, found⟩
    · exact second
    rcases way' with rfl | ⟨lt', path', found'⟩
    · exact first
    obtain ⟨i, j, here, there, before⟩ := places_of_lt old new lt
    obtain ⟨_, k, there', far, after⟩ := places_of_lt new last lt'
    obtain rfl := place_unique there there'
    obtain ⟨rfl, rotations⟩ := (path_eq_ok here there before.le).1 found
    obtain ⟨rfl, rotations'⟩ := (path_eq_ok there far after.le).1 found'
    have whole := (path_eq_ok here far (before.trans after).le).2 ⟨rfl, fun s mem =>
      (mem_append.1 (between_append before.le after.le ▸ mem)).elim (rotations s) (rotations' s)⟩
    simp [Served.vet, served_epochOf.2 old, served_epochOf.2 last, none, whole, (lt.trans lt').not_gt]
  · intro a b first second
    obtain ⟨start, stop, old, new, way, -⟩ := vet_ok first
    obtain ⟨_, _, new', old', way', -⟩ := vet_ok second
    obtain rfl := same_epoch old old'
    obtain rfl := same_epoch new new'
    rcases way with same | ⟨lt, -⟩
    · exact same
    rcases way' with same | ⟨lt', -⟩
    · exact same.symm
    omega

end Vetting

end Dynodoc.Authority
