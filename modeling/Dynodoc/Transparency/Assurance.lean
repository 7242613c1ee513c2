import Std.Data.ExtTreeMap
import Dynodoc.Lib.OrderedMap
import Dynodoc.Transparency.Formal
import Dynodoc.Transparency.Inclusion

/-! Assurance levels of inclusion bundles, and the checkpoints that a client comes to know.
Notes, signatures and leaf encodings are read by functions that are parameters here. -/
namespace Dynodoc.Transparency
open Std (ExtTreeMap)
open List OrderedMap Nat Std.ExtTreeMap Formal

variable {Hash : Type} {size : Nat}

inductive Level where
  | l0
  | l1
  | l2
  | l3
  deriving DecidableEq

def Level.rank : Level → Nat
  | l0 => 0
  | l1 => 1
  | l2 => 2
  | l3 => 3

instance : LE Level := ⟨fun a b => a.rank ≤ b.rank⟩

instance (a b : Level) : Decidable (a ≤ b) := inferInstanceAs (Decidable (a.rank ≤ b.rank))

structure Checkpoint (Hash : Type) where
  origin : String
  size : Nat
  root : Hash
  deriving DecidableEq

structure Cosigner where
  name : String
  operator : String
  time : Nat
  deriving DecidableEq

structure VerifiedCheckpoint (Hash : Type) where
  checkpoint : Checkpoint Hash
  cosigners : List Cosigner
  deriving DecidableEq

structure Witness (Key : Type) where
  name : String
  key : Key
  operator : String

structure Policy (Key : Type) where
  origin : String
  logKey : Key
  witnesses : List (Witness Key)
  threshold : Nat
  distinctOperators : Bool
  maxAgeSeconds : Nat

structure InclusionBundle (Hash Leaf : Type) where
  leaf : Leaf
  index : Nat
  size : Nat
  path : List Hash
  checkpoint : String

/-- How notes are parsed and their signature lines checked, and how a leaf is hashed. A line
of a witness key carries a time. -/
structure Reader (Hash Leaf Note Key : Type) where
  note : String → Except Error Note
  checkpoint : Note → Except Error (Checkpoint Hash)
  logSignature : Note → Key → Except Error Bool
  cosignature : Note → Key → Except Error (Option Nat)
  leafHash : Leaf → Except Error Hash

inductive Limit where
  | noPriorCheckpoint
  | quorumNotMet (counted needed : Nat)
  | consistencyUnavailable (knownSize : Nat)
  deriving DecidableEq

structure Assessment (Hash : Type) where
  level : Level
  rejection : Option Error
  limits : List Limit
  checkpoint : Option (VerifiedCheckpoint Hash)

/-- The checkpoints of one log that a client trusts, at most one root for each size. -/
structure KnownCheckpoints (Hash : Type) where
  origin : String
  bySize : ExtTreeMap Nat Hash

inductive Prior where
  | none
  | unproven (knownSize : Nat)
  | consistent
  deriving DecidableEq

namespace KnownCheckpoints

variable [DecidableEq Hash]

def new (origin : String) : KnownCheckpoints Hash := ⟨origin, ∅⟩

def record (known : KnownCheckpoints Hash) (verified : VerifiedCheckpoint Hash) :
    Except Error (KnownCheckpoints Hash) :=
  let checkpoint := verified.checkpoint
  if checkpoint.origin ≠ known.origin then
    .error (.wrongOrigin known.origin checkpoint.origin)
  else if known.bySize[checkpoint.size]?.any fun root => root ≠ checkpoint.root then
    .error (.splitView checkpoint.size)
  else .ok { known with bySize := known.bySize.insert checkpoint.size checkpoint.root }

def latest (known : KnownCheckpoints Hash) : Option (Nat × Hash) := known.bySize.toList.getLast?

end KnownCheckpoints

section Assess

variable {Leaf Note Key : Type} (H : Hasher Hash) (read : Reader Hash Leaf Note Key)

def Policy.verifyCheckpoint (policy : Policy Key) (note : Note) :
    Except Error (VerifiedCheckpoint Hash) := do
  let checkpoint ← read.checkpoint note
  if checkpoint.origin ≠ policy.origin then
    .error (.wrongOrigin policy.origin checkpoint.origin)
  if !(← read.logSignature note policy.logKey) then .error .missingLogSignature
  let cosigners ← policy.witnesses.filterMapM fun witness => do
    let time ← read.cosignature note witness.key
    return time.map fun time => ⟨witness.name, witness.operator, time⟩
  return ⟨checkpoint, cosigners⟩

def Policy.quorum (policy : Policy Key) (cosigners : List Cosigner) (now : Nat) : Nat :=
  let fresh := cosigners.filter fun c => (c.time - now) + (now - c.time) ≤ policy.maxAgeSeconds
  if policy.distinctOperators then (fresh.map Cosigner.operator).dedup.length else fresh.length

variable [DecidableEq Hash] [DecidableEq Leaf]

def InclusionBundle.verifyPath (bundle : InclusionBundle Hash Leaf) (root : Hash) :
    Except Error Unit := do
  verifyInclusion H (← read.leafHash bundle.leaf) bundle.index bundle.size bundle.path root

/-- Compare a checkpoint with the latest one known; the smaller must be a verified prefix of
the larger. -/
def checkKnown (policy : Policy Key) (known : KnownCheckpoints Hash) (checkpoint : Checkpoint Hash)
    (proofs : Nat → Nat → Option (List Hash)) : Except Error Prior :=
  if known.origin ≠ policy.origin then .error (.wrongOrigin policy.origin known.origin)
  else if known.bySize[checkpoint.size]?.any fun root => root ≠ checkpoint.root then
    .error (.splitView checkpoint.size)
  else
    match known.latest with
    | none => .ok .none
    | some (knownSize, knownRoot) =>
      if knownSize = checkpoint.size then .ok .consistent
      else
        let (first, second, firstRoot, secondRoot) :=
          if knownSize < checkpoint.size then
            (knownSize, checkpoint.size, knownRoot, checkpoint.root)
          else (checkpoint.size, knownSize, checkpoint.root, knownRoot)
        match proofs first second with
        | none => .ok (.unproven knownSize)
        | some proof =>
          match verifyConsistency H first second firstRoot secondRoot proof with
          | .ok () => .ok .consistent
          | .error _ => .error (.inconsistent knownSize checkpoint.size)

/-- What a client assesses: any bundle, with proofs from anywhere, at any time. -/
structure Call (Hash Leaf Key : Type) where
  policy : Policy Key
  bundle : InclusionBundle Hash Leaf
  expected : Option Leaf
  proofs : Nat → Nat → Option (List Hash)
  now : Nat

def assessInner (known : KnownCheckpoints Hash) (call : Call Hash Leaf Key) :
    Except Error (Assessment Hash) := do
  let note ← read.note call.bundle.checkpoint
  let verified ← call.policy.verifyCheckpoint read note
  let checkpoint := verified.checkpoint
  if call.bundle.size ≠ checkpoint.size then
    .error (.bundleSizeMismatch call.bundle.size checkpoint.size)
  if call.expected.any fun leaf => leaf ≠ call.bundle.leaf then .error .leafMismatch
  call.bundle.verifyPath H read checkpoint.root
  let prior ← checkKnown H call.policy known checkpoint call.proofs
  let counted := call.policy.quorum verified.cosigners call.now
  let met := counted ≥ call.policy.threshold
  let level := if met then Level.l2 else .l1
  let short := if met then [] else [Limit.quorumNotMet counted call.policy.threshold]
  return {
    level := if prior = .consistent ∧ level = .l2 then .l3 else level
    rejection := none
    limits := short ++ match prior with
      | .none => [.noPriorCheckpoint]
      | .unproven knownSize => [.consistencyUnavailable knownSize]
      | .consistent => []
    checkpoint := some verified }

def assess (known : KnownCheckpoints Hash) (call : Call Hash Leaf Key) : Assessment Hash :=
  match assessInner H read known call with
  | .ok assessment => assessment
  | .error rejection => ⟨.l0, some rejection, [], none⟩

/-- A client that takes its first checkpoint at L2 and every later one at L3. -/
def accept (known : KnownCheckpoints Hash) (call : Call Hash Leaf Key) : KnownCheckpoints Hash :=
  let assessment := assess H read known call
  if (known.bySize.isEmpty ∧ .l2 ≤ assessment.level) ∨ assessment.level = .l3 then
    match assessment.checkpoint with
    | none => known
    | some verified =>
      match known.record verified with
      | .ok next => next
      | .error _ => known
  else known

def runClient (origin : String) (calls : List (Call Hash Leaf Key)) : KnownCheckpoints Hash :=
  calls.foldl (accept H read) (.new origin)

end Assess

section Known

variable {known : KnownCheckpoints Hash} {root : Hash}

theorem latest_eq_some (latest : known.latest = some (size, root)) :
    known.bySize[size]? = some root ∧ ∀ other, other ∈ known.bySize → other ≤ size := by
  obtain ⟨before, all⟩ := getLast?_eq_some_iff.1 latest
  have ordered := ordered_keys_toList (t := known.bySize)
  rw [all, pairwise_append] at ordered
  refine ⟨?_, fun other mem => ?_⟩
  · rw [← mem_toList_iff_getElem?_eq_some, all]
    simp
  · obtain ⟨r, stored⟩ := mem_iff_exists.1 mem
    rw [← mem_toList_iff_getElem?_eq_some, all, mem_append] at stored
    rcases stored with earlier | last
    · have less := ordered.2.2 _ earlier _ (mem_singleton_self _)
      exact Nat.le_of_lt (Nat.compare_eq_lt.1 less)
    · simp only [mem_singleton, Prod.mk.injEq] at last
      exact Nat.le_of_eq last.1

variable [DecidableEq Hash] {verified : VerifiedCheckpoint Hash}

theorem record_eq_ok {next : KnownCheckpoints Hash}
    (recorded : known.record verified = .ok next) :
    next.bySize = known.bySize.insert verified.checkpoint.size verified.checkpoint.root := by
  obtain ⟨-, recorded⟩ := Loop.guard_eq_ok.1 recorded
  split at recorded
  · contradiction
  cases recorded
  rfl

end Known

section Inversion

variable {Leaf Note Key : Type} {H : Hasher Hash} {read : Reader Hash Leaf Note Key}
  [DecidableEq Hash] [DecidableEq Leaf]

/-- A checkpoint that agrees with the latest one known, in either direction. -/
inductive Agrees (H : Hasher Hash) (known : KnownCheckpoints Hash) (checkpoint : Checkpoint Hash) :
    Prop where
  | same (latest : known.latest = some (checkpoint.size, checkpoint.root))
  | newer {size : Nat} {root : Hash} {proof : List Hash} (latest : known.latest = some (size, root))
      (below : size < checkpoint.size)
      (accepted : verifyConsistency H size checkpoint.size root checkpoint.root proof = .ok ())
  | older {size : Nat} {root : Hash} {proof : List Hash} (latest : known.latest = some (size, root))
      (below : checkpoint.size < size)
      (accepted : verifyConsistency H checkpoint.size size checkpoint.root root proof = .ok ())

variable {known : KnownCheckpoints Hash} {checkpoint : Checkpoint Hash}

theorem checkKnown_consistent {policy : Policy Key} {proofs : Nat → Nat → Option (List Hash)}
    (checked : checkKnown H policy known checkpoint proofs = .ok .consistent) :
    Agrees H known checkpoint := by
  obtain ⟨-, checked⟩ := Loop.guard_eq_ok.1 checked
  obtain ⟨noSplit, checked⟩ := Loop.guard_eq_ok.1 checked
  split at checked
  · contradiction
  rename_i size root latest
  split at checked
  · rename_i same
    subst same
    have stored := (latest_eq_some latest).1
    simp only [stored, Option.any_some, decide_eq_true_eq, not_not] at noSplit
    exact .same (noSplit ▸ latest)
  · rename_i other
    by_cases below : size < checkpoint.size
    · simp only [if_pos below] at checked
      split at checked
      · cases checked
      · rename_i proof _
        cases accepted : verifyConsistency H size checkpoint.size root checkpoint.root proof with
        | error e => simp [accepted] at checked
        | ok => exact .newer latest below accepted
    · simp only [if_neg below] at checked
      split at checked
      · cases checked
      · rename_i proof _
        cases accepted : verifyConsistency H checkpoint.size size checkpoint.root root proof with
        | error e => simp [accepted] at checked
        | ok => exact .older latest (by omega) accepted

theorem assess_l3 {call : Call Hash Leaf Key}
    (reached : (assess H read known call).checkpoint = some verified)
    (top : (assess H read known call).level = .l3) : Agrees H known verified.checkpoint := by
  simp only [assess] at reached top
  cases inner : assessInner H read known call with
  | error e => simp [inner] at reached
  | ok assessment =>
    simp only [inner] at reached top
    obtain ⟨note, -, inner⟩ := Loop.bind_eq_ok.1 inner
    obtain ⟨found, -, inner⟩ := Loop.bind_eq_ok.1 inner
    obtain ⟨-, inner⟩ := Loop.guard_eq_ok.1 inner
    obtain ⟨-, inner⟩ := Loop.guard_eq_ok.1 inner
    obtain ⟨-, -, inner⟩ := Loop.bind_eq_ok.1 inner
    obtain ⟨prior, checked, inner⟩ := Loop.bind_eq_ok.1 inner
    cases inner
    simp only [Option.some.injEq] at reached
    subst reached
    have consistent : prior = .consistent := by
      by_contra other
      simp only [other, false_and, if_false] at top
      split at top <;> contradiction
    exact checkKnown_consistent (consistent ▸ checked)

end Inversion

section Fork

variable {Leaf Note Key : Type} {H : Hasher Hash} {read : Reader Hash Leaf Note Key}

/-- One sequence of formal leaves has all the known roots at its prefixes. -/
def Described (H : Hasher Hash) (known : KnownCheckpoints Hash) : Prop :=
  ∃ leaves : List (Formal Hash), ∀ (size : Nat) (root : Hash), known.bySize[size]? = some root →
    size ≤ leaves.length ∧ (0 < size → treeHash (Formal.hasher H) (leaves.take size) = .hash root)

theorem described_new (origin : String) : Described H (.new origin) :=
  ⟨[], by simp [KnownCheckpoints.new]⟩

variable {known next : KnownCheckpoints Hash}

theorem described_first
    (none : ∀ size : Nat, known.bySize[size]? = none)
    (added : next.bySize = known.bySize.insert size root) :
    Described H next := by
  have exists_leaves : ∃ leaves : List (Formal Hash), leaves.length = size ∧
      (0 < size → treeHash (hasher H) leaves = .hash root) := by
    rcases Nat.eq_zero_or_pos size with zero | positive
    · exact ⟨[], zero.symm, by omega⟩
    · obtain ⟨leaves, length, tree⟩ := @Formal.exists_leaves _ H size positive (.hash root) trivial
      exact ⟨leaves, length, fun _ => tree⟩
  obtain ⟨leaves, length, tree⟩ := exists_leaves
  refine ⟨leaves, fun other r stored => ?_⟩
  rw [added, OrderedMap.getElem?_insert] at stored
  split at stored
  · rename_i same
    cases stored
    subst same
    exact ⟨Nat.le_of_eq length.symm, by rwa [← length, take_length, length]⟩
  · simp [none other] at stored

variable [DecidableEq Hash] [DecidableEq Leaf]
  (injective : ∀ a b c d, H.nodeHash a b = H.nodeHash c d → a = c ∧ b = d)

include injective

omit [DecidableEq Leaf] in
theorem formal_first_root {leaves : List (Formal Hash)} {first : Nat} {firstRoot secondRoot : Hash}
    {proof : List Hash} (positive : 0 < first) (below : first < leaves.length)
    (tree : treeHash (hasher H) leaves = .hash secondRoot)
    (accepted : verifyConsistency H first leaves.length firstRoot secondRoot proof = .ok ()) :
    treeHash (hasher H) (leaves.take first) = .hash firstRoot := by
  classical
  have renamed := @verifyConsistency_map _ _ H (hasher H) hash (fun _ _ => rfl) rfl _ _
    first leaves.length firstRoot secondRoot proof accepted
  rw [← tree] at renamed
  exact (accepted_first_root _ (nodeHash_injective injective) leaves first _ _ positive below
    renamed).symm

omit [DecidableEq Leaf] in
theorem described_agrees
    (described : Described H known) (agrees : Agrees H known checkpoint)
    (added : next.bySize = known.bySize.insert checkpoint.size checkpoint.root) :
    Described H next := by
  obtain ⟨leaves, roots⟩ := described
  cases agrees with
  | same latest =>
    have stored := (latest_eq_some latest).1
    refine ⟨leaves, fun size root found => roots size root ?_⟩
    rw [added, OrderedMap.getElem?_insert] at found
    split at found
    · rename_i same
      rw [same, stored, found]
    · exact found
  | newer latest below accepted =>
    rename_i last lastRoot proof
    obtain ⟨stored, largest⟩ := latest_eq_some latest
    obtain ⟨inside, lastTree⟩ := roots last lastRoot stored
    obtain ⟨longer, length, tree⟩ :=
      @Formal.exists_leaves _ H checkpoint.size (by omega) (.hash checkpoint.root) trivial
    refine ⟨longer, fun size root found => ?_⟩
    rw [added, OrderedMap.getElem?_insert] at found
    split at found
    · rename_i same
      cases found
      subst same
      exact ⟨le_of_eq length.symm, fun _ => by rwa [← length, take_length]⟩
    · -- The new leaves start with the old ones, which their roots fix.
      have bound := largest size (of_getElem?_eq_some found)
      refine ⟨by omega, fun positive => ?_⟩
      have start := @formal_first_root _ H _ injective longer last lastRoot checkpoint.root proof
        (by omega) (by omega) tree (length.symm ▸ accepted)
      have shared := treeHash_injective _ (nodeHash_injective injective) (longer.take last)
        (leaves.take last) (by simp only [length_take]; omega)
        (start.trans (lastTree (by omega)).symm)
      have whole := (roots size root found).2 positive
      rwa [← min_eq_left bound, ← take_take, ← shared, take_take,
        min_eq_left bound] at whole
  | older latest below accepted =>
    rename_i last lastRoot proof
    obtain ⟨stored, -⟩ := latest_eq_some latest
    obtain ⟨inside, lastTree⟩ := roots last lastRoot stored
    refine ⟨leaves, fun size root found => ?_⟩
    rw [added, OrderedMap.getElem?_insert] at found
    split at found
    · rename_i same
      cases found
      subst same
      refine ⟨by omega, fun positive => ?_⟩
      have length : (leaves.take last).length = last := by
        rw [length_take]
        omega
      have start := @formal_first_root _ H _ injective (leaves.take last) checkpoint.size
        checkpoint.root lastRoot proof positive (by omega) (lastTree (by omega)) (length.symm ▸ accepted)
      rwa [take_take, min_eq_left (le_of_lt below)] at start
    · exact roots size root found

theorem described_accept (described : Described H known)
    (call : Call Hash Leaf Key) : Described H (accept H read known call) := by
  simp only [accept]
  split
  · rename_i rule
    split
    · exact described
    · rename_i verified reached
      split
      · rename_i next recorded
        have added := record_eq_ok recorded
        rcases rule with ⟨empty, -⟩ | top
        · refine described_first (fun size => ?_) added
          rw [ExtTreeMap.isEmpty_iff] at empty
          simp [empty]
        · exact described_agrees injective described (assess_l3 reached top) added
      · exact described
  · exact described

theorem described_run (origin : String) (calls : List (Call Hash Leaf Key)) :
    Described H (runClient H read origin calls) := by
  have go : ∀ (calls : List (Call Hash Leaf Key)) (known : KnownCheckpoints Hash),
      Described H known → Described H (calls.foldl (accept H read) known) := by
    intro calls
    induction calls with
    | nil => exact fun known described => described
    | cons call calls ih =>
      exact fun known described => ih _ (described_accept injective described call)
  exact go calls _ (described_new origin)

/-- All checkpoints that such a client ever takes describe one log that only grows. -/
theorem known_checkpoints_are_one_log (origin : String) (calls : List (Call Hash Leaf Key))
    (size₁ size₂ : Nat) (root₁ root₂ : Hash)
    (known₁ : (runClient H read origin calls).bySize[size₁]? = some root₁)
    (known₂ : (runClient H read origin calls).bySize[size₂]? = some root₂) (le : size₁ ≤ size₂)
    (leaves₁ leaves₂ : List Hash) (length₁ : leaves₁.length = size₁)
    (length₂ : leaves₂.length = size₂) (tree₁ : treeHash H leaves₁ = root₁)
    (tree₂ : treeHash H leaves₂ = root₂) : leaves₁ <+: leaves₂ := by
  obtain ⟨leaves, roots⟩ := @described_run _ _ _ _ H read _ _ injective origin calls
  have same {xs : List Hash} {size : Nat} {root : Hash} (positive : 0 < size)
      (length : xs.length = size) (tree : treeHash H xs = root)
      (known : (runClient H read origin calls).bySize[size]? = some root) :
      xs.map Formal.hash = leaves.take size := by
    obtain ⟨inside, described⟩ := roots size root known
    have renamed := @treeHash_map _ _ H (Formal.hasher H) Formal.hash (fun _ _ => rfl) rfl xs
    refine treeHash_injective (Formal.hasher H) (Formal.nodeHash_injective injective) _ _ ?_ ?_
    · rw [length_map, length_take]
      omega
    · rw [renamed, tree, described positive]
  rcases Nat.eq_zero_or_pos size₁ with zero | positive
  · rw [zero, length_eq_zero_iff] at length₁
    rw [length₁]
    exact nil_prefix
  · have first := same positive length₁ tree₁ known₁
    have second := same (by omega) length₂ tree₂ known₂
    have cut : leaves₁.map Formal.hash = (leaves₂.take size₁).map Formal.hash := by
      rw [map_take, second, take_take, Nat.min_eq_left le, first]
    rw [map_injective_iff.2 (fun _ _ => Formal.hash.inj) cut]
    exact take_prefix ..

end Fork

/-- A log of two leaves whose checkpoints are named by their sizes. -/
def twoLeafLog : Reader Digest Nat String Unit where
  note := .ok
  checkpoint := fun note =>
    if note = "1" then .ok ⟨"log", 1, .leaf 0⟩
    else if note = "2" then .ok ⟨"log", 2, .node (.leaf 0) (.leaf 1)⟩
    else .error (.malformedCheckpoint "size is not a plain decimal")
  logSignature := fun _ _ => .ok true
  cosignature := fun _ _ => .ok (some 0)
  leafHash := fun entry => .ok (.leaf entry)

def twoLeafCalls : List (Call Digest Nat Unit) :=
  let policy := ⟨"log", (), [⟨"witness", (), "operator"⟩], 1, true, 60⟩
  [⟨policy, ⟨0, 0, 1, [], "1"⟩, none, fun _ _ => none, 0⟩,
    ⟨policy, ⟨1, 1, 2, [.leaf 0], "2"⟩, some 1, fun _ _ => some [.leaf 1], 30⟩]

theorem two_leaf_checkpoints_are_one_log :
    (runClient symbolic twoLeafLog "log" twoLeafCalls).bySize[1]? = some (.leaf 0) ∧
    (runClient symbolic twoLeafLog "log" twoLeafCalls).bySize[2]? =
      some (.node (.leaf 0) (.leaf 1)) ∧
    [Digest.leaf 0] <+: [.leaf 0, .leaf 1] := by
  have first : (runClient symbolic twoLeafLog "log" twoLeafCalls).bySize[1]? =
      some (.leaf 0) := by
    decide +kernel
  have second : (runClient symbolic twoLeafLog "log" twoLeafCalls).bySize[2]? =
      some (.node (.leaf 0) (.leaf 1)) := by
    decide +kernel
  refine ⟨first, second, ?_⟩
  exact known_checkpoints_are_one_log (fun _ _ _ _ same => Digest.node.inj same) "log" twoLeafCalls
    1 2 _ _ first second (by decide) _ _ rfl rfl (by simp [treeHash])
    (by simp [treeHash, split, symbolic, show log2 1 = 0 from rfl, List.take])

end Dynodoc.Transparency
