import Dynodoc.Checkpoint.Store
import Dynodoc.Lib.Sorted
import Dynodoc.Log.Chain
import Dynodoc.Transparency.Merkle

/-! History horizons: what a horizon released, the roots over its rows, and the check of the
rows of all horizons against the commits that are still stored. Addresses are 32 bytes that
the source spells in hexadecimal. -/
namespace Dynodoc.Horizon
open Std (ExtTreeMap ExtTreeSet)
open Checkpoint (Address)
open Log (Uuid Hashing utf8 toBeBytes)
open Sorted

instance addressTransOrd : Std.TransOrd Address := transOrdSubtype

instance addressLawfulEqOrd : Std.LawfulEqOrd Address := lawfulEqOrdSubtype

instance uuidTransOrd : Std.TransOrd Uuid := transOrdSubtype

instance uuidLawfulEqOrd : Std.LawfulEqOrd Uuid := lawfulEqOrdSubtype

inductive Invariant where
  | h3 | h4 | h5 | h6 | h7 | h8
  deriving DecidableEq

inductive Error where
  | format (what : String)
  | limit (what : String)
  | violated (invariant : Invariant) (detail : String)
  | plan (what : String)
  | missing (commit : Address)
  deriving DecidableEq

def hex (address : Address) : String := Log.hex address.1

/-- The largest integer that every JSON implementation represents. -/
def maxJsonInt : Nat := 2 ^ 53 - 1

structure SkeletonEntry where
  address : Address
  parents : List Address
  height : Nat
  deriving DecidableEq

structure FrontierEdge where
  child : Address
  parent : Address
  parentHeight : Nat
  deriving DecidableEq

structure StateKey where
  document : Uuid
  stateRoot : Address
  deriving DecidableEq

instance StateKey.ord : Ord StateKey :=
  ⟨compareLex (compareOn StateKey.document) (compareOn StateKey.stateRoot)⟩

instance StateKey.transOrd : Std.TransOrd StateKey :=
  inferInstanceAs (Std.TransCmp (compareLex (compareOn StateKey.document) (compareOn StateKey.stateRoot)))

theorem eq_of_compareLex {α κ μ : Type} [Ord κ] [Std.LawfulEqOrd κ] [Ord μ] [Std.LawfulEqOrd μ]
    {f : α → κ} {g : α → μ} {a b : α} (same : compareLex (compareOn f) (compareOn g) a b = .eq) :
    f a = f b ∧ g a = g b := by
  rw [compareLex_eq_eq] at same
  exact ⟨Std.LawfulEqCmp.eq_of_compare same.1, Std.LawfulEqCmp.eq_of_compare same.2⟩

instance StateKey.lawfulEqOrd : Std.LawfulEqOrd StateKey where
  compare_self {a} := Std.ReflCmp.compare_self
  eq_of_compare {a b} same := by
    obtain ⟨document, root⟩ := eq_of_compareLex same
    cases a
    cases b
    simp_all

structure Counts where
  commitsReleased : Nat
  commitBytesReleased : Nat
  statesReleased : Nat
  objectsReleased : Nat
  objectBytesReleased : Nat
  deriving DecidableEq

structure Roots where
  skeleton : Address
  frontier : Address
  releasedStates : Address
  deriving DecidableEq

/-- What the check of the rows reads of a record. -/
structure HorizonRecord where
  sequence : Nat
  counts : Counts
  roots : Roots
  evidence : List String
  deriving DecidableEq

structure HeadRef where
  branch : String
  commit : Address
  generation : Int
  deriving DecidableEq

structure HorizonRows where
  record : HorizonRecord
  skeleton : List SkeletonEntry
  frontier : List FrontierEdge
  releasedStates : List StateKey

structure Retained where
  address : Address
  parents : List Address
  height : Nat
  states : List StateKey

def validBranch (name : String) : Bool :=
  let chars := name.toList
  name ≠ "" && name.utf8ByteSize ≤ 200 &&
    (chars.splitOn '/').all (fun part => part ≠ [] && part ≠ ['.'] && part ≠ ['.', '.']) &&
    chars.all (fun c => c.isAlphanum || c ∈ ['-', '_', '/', ' ', '.']) && ' ' ∉ chars &&
    chars.getLast? ≠ some '.' && !(chars.zip chars.tail).any fun pair => pair = ('.', '.')

section Roots

variable (env : Hashing)

def merkle : Transparency.Hasher Address where
  nodeHash left right := env.sha256 (1 :: (left.1 ++ right.1))
  emptyRoot := env.sha256 []

def leafHash (data : List UInt8) : Address := env.sha256 (0 :: data)

/-- The root over leaves sorted by their keys, which are what `cmp` compares. -/
def rootOf {α : Type} (cmp : α → α → Ordering) (leaf : α → Except Error Address) (items : List α) :
    Except Error Address :=
  let order := sortBy cmp items
  if (order.zip order.tail).any fun (a, b) => cmp a b = .eq then
    .error (.format "duplicate leaf key")
  else do
    let hashes ← order.mapM leaf
    .ok (Transparency.treeHash (merkle env) hashes)

theorem rootOf_nil {α : Type} (cmp : α → α → Ordering) (leaf : α → Except Error Address) :
    rootOf env cmp leaf [] = .ok (Transparency.treeHash (merkle env) []) := rfl

def skeletonLeaf (e : SkeletonEntry) : Except Error Address :=
  if e.parents.length > 2 ∨ e.height > maxJsonInt then .error (.format "skeleton entry")
  else .ok (leafHash env (utf8 "dynodoc.horizon-skeleton-leaf\x00v1\x00" ++ e.address.1 ++
    [UInt8.ofNat e.parents.length] ++ e.parents.flatMap Subtype.val ++ toBeBytes e.height))

def skeletonRoot : List SkeletonEntry → Except Error Address :=
  rootOf env (compareOn SkeletonEntry.address) (skeletonLeaf env)

def frontierLeaf (e : FrontierEdge) : Except Error Address :=
  if e.parentHeight > maxJsonInt then .error (.format "frontier edge")
  else .ok (leafHash env (utf8 "dynodoc.horizon-frontier-leaf\x00v1\x00" ++ e.child.1 ++
    e.parent.1 ++ toBeBytes e.parentHeight))

def FrontierEdge.cmp : FrontierEdge → FrontierEdge → Ordering :=
  compareLex (compareOn FrontierEdge.child) (compareOn FrontierEdge.parent)

def frontierRoot : List FrontierEdge → Except Error Address :=
  rootOf env FrontierEdge.cmp (frontierLeaf env)

def stateLeaf (s : StateKey) : Except Error Address :=
  .ok (leafHash env (utf8 "dynodoc.horizon-state-leaf\x00v1\x00" ++ s.document.1 ++ s.stateRoot.1))

def releasedStatesRoot : List StateKey → Except Error Address := rootOf env compare (stateLeaf env)

def retainedLeaf (a : Address) : Except Error Address :=
  .ok (leafHash env (utf8 "dynodoc.horizon-retained-leaf\x00v1\x00" ++ a.1))

def retainedRoot : List Address → Except Error Address := rootOf env compare (retainedLeaf env)

def headLine (head : HeadRef) : List UInt8 :=
  utf8 (head.branch ++ "\x00" ++ hex head.commit ++ "\x00" ++ toString head.generation ++ "\n")

def headsDigest (heads : List HeadRef) : Except Error Address :=
  let ordered := sortBy (compareOn HeadRef.branch) heads
  if (ordered.zip ordered.tail).any fun (a, b) => a.branch = b.branch then
    .error (.format "duplicate branch")
  else if ordered.any fun head => !validBranch head.branch || head.generation ≤ 0 then
    .error (.format "branch head")
  else .ok (env.sha256 (utf8 "dynodoc.horizon-heads\x00v1\x00" ++ ordered.flatMap headLine))

end Roots

section Check

variable (env : Hashing)

def addBody (bodies : ExtTreeMap Address Retained) (commit : Retained) :
    Except Error (ExtTreeMap Address Retained) :=
  if commit.address ∈ bodies then .error (.violated .h7 (hex commit.address ++ " listed twice"))
  else .ok (bodies.insert commit.address commit)

def addReleased (bodies : ExtTreeMap Address Retained) (skeleton : ExtTreeMap Address SkeletonEntry)
    (entry : SkeletonEntry) : Except Error (ExtTreeMap Address SkeletonEntry) :=
  if entry.address ∈ bodies ∨ entry.address ∈ skeleton then
    .error (.violated .h7
      (hex entry.address ++ " is both retained and released, or released twice"))
  else .ok (skeleton.insert entry.address entry)

def rowsMatch (rows : HorizonRows) : Except Error Bool := do
  let record := rows.record
  let counted := if "topology:drop" ∈ record.evidence then 0 else record.counts.commitsReleased
  let skeleton ← skeletonRoot env rows.skeleton
  if skeleton ≠ record.roots.skeleton then return false
  let frontier ← frontierRoot env rows.frontier
  if frontier ≠ record.roots.frontier then return false
  let states ← releasedStatesRoot env rows.releasedStates
  if states ≠ record.roots.releasedStates then return false
  return rows.skeleton.length = counted && rows.releasedStates.length = record.counts.statesReleased

def checkRows (rows : HorizonRows) : Except Error Unit := do
  if ← rowsMatch env rows then .ok ()
  else .error (.violated .h5
    ("rows of sequence " ++ toString rows.record.sequence ++ " do not reproduce its roots"))

variable (bodies : ExtTreeMap Address Retained) (skeleton : ExtTreeMap Address SkeletonEntry)

def checkParent (commit : Retained) (parent : Address) : Except Error Unit :=
  if parent ∉ bodies ∧ parent ∉ skeleton then
    .error (.violated .h3 ("parent " ++ hex parent ++ " of retained " ++ hex commit.address ++
      " is neither retained nor released"))
  else .ok ()

def heightAt (address : Address) : Option Nat :=
  (bodies[address]?.map Retained.height).or (skeleton[address]?.map SkeletonEntry.height)

def raiseHeight (entry : SkeletonEntry) (expected : Nat) (parent : Address) : Except Error Nat :=
  match heightAt bodies skeleton parent with
  | some height => .ok (max expected (height + 1))
  | none => .error (.violated .h4
      ("skeleton parent " ++ hex parent ++ " of " ++ hex entry.address ++ " is unknown"))

def checkHeight (entry : SkeletonEntry) : Except Error Unit := do
  let expected ← entry.parents.foldlM (raiseHeight bodies skeleton entry) 0
  if entry.parents.length > 2 ∨ entry.height ≠ expected then
    .error (.violated .h4 ("height of " ++ hex entry.address ++ " is not one above its parents"))
  else .ok ()

def checkEdge (edge : FrontierEdge) : Except Error Unit :=
  if bodies[edge.child]?.any (fun commit => edge.parent ∈ commit.parents) ∧
      skeleton[edge.parent]?.any (fun entry => entry.height = edge.parentHeight) then .ok ()
  else .error (.violated .h4
    ("frontier edge " ++ hex edge.child ++ " -> " ++ hex edge.parent ++ " matches no rows"))

variable (released : ExtTreeSet StateKey)

def checkHead (head : HeadRef) : Except Error Unit :=
  match bodies[head.commit]? with
  | none => .error (.violated .h6
      ("head " ++ hex head.commit ++ " of " ++ head.branch ++ " is not retained"))
  | some commit =>
    if commit.states.any (· ∈ released) then
      .error (.violated .h6 ("a state of the head of " ++ head.branch ++ " is released"))
    else .ok ()

variable (present : ExtTreeSet StateKey)

def checkAbsent (state : StateKey) : Except Error Unit :=
  if state ∈ present then .error (.violated .h8 "a released state still has its objects")
  else .ok ()

def checkPresent (commit : Retained) (state : StateKey) : Except Error Unit :=
  if state ∉ present ∧ state ∉ released then
    .error (.violated .h8 ("state of retained " ++ hex commit.address ++
      " is missing and not listed as released"))
  else .ok ()

/-- H3 to H8 for the current repository: the horizons oldest first, the branches now, and
the states whose objects are all stored. -/
def checkState (retained : List Retained) (horizons : List HorizonRows) (heads : List HeadRef) :
    Except Error Unit := do
  let bodies ← retained.foldlM addBody ∅
  let skeleton ← (horizons.flatMap HorizonRows.skeleton).foldlM (addReleased bodies) ∅
  horizons.forM (checkRows env)
  retained.forM fun commit => commit.parents.forM (checkParent bodies skeleton commit)
  (skeleton.toList.map Prod.snd).forM (checkHeight bodies skeleton)
  (horizons.flatMap HorizonRows.frontier).forM (checkEdge bodies skeleton)
  let released := ExtTreeSet.ofList (horizons.flatMap HorizonRows.releasedStates)
  heads.forM (checkHead bodies released)
  released.toList.forM (checkAbsent present)
  retained.forM fun commit => commit.states.forM (checkPresent released present commit)

end Check

end Dynodoc.Horizon
