import Dynodoc.Checkpoint.Store
import Dynodoc.Lib.BigEndian
import Dynodoc.Lib.Chunks

/-! Byte content in chunks of 64 KiB under branches of up to 128 references. Bytes come
from a reader in portions of any size, and the tree is built from the left with one open
branch at every height. -/
namespace Dynodoc.Checkpoint.Content
open List BigEndian

def chunkBytes : Nat := 64 * 1024

def fanout : Nat := 128

def maxHeight : Nat := 4

/-- `DYNOCNT` and a zero. -/
def magic : List UInt8 := [0x44, 0x59, 0x4E, 0x4F, 0x43, 0x4E, 0x54, 0]

/-- `dynodoc.content`, a zero, `v1` and a zero. -/
def domain : List UInt8 :=
  [0x64, 0x79, 0x6E, 0x6F, 0x64, 0x6F, 0x63, 0x2E, 0x63, 0x6F, 0x6E, 0x74, 0x65, 0x6E, 0x74, 0,
    0x76, 0x31, 0]

/-- Magic, version and tag. -/
def headerBytes : Nat := 10

structure Reference where
  address : Address
  length : Nat
  deriving DecidableEq

inductive Object where
  | chunk (data : List UInt8)
  | branch (height : Nat) (children : List Reference)
  | root (height : Nat) (child : Reference)
  deriving DecidableEq

def capacity (height : Nat) : Nat := chunkBytes * fanout ^ height

def heightFor (length : Nat) : Except Error Nat :=
  match (List.range (maxHeight + 1)).find? fun height => length ≤ capacity height with
  | some height => .ok height
  | none => .error (.limit "content tree height")

def header (tag : UInt8) : List UInt8 := magic ++ [1, tag]

def putReference (child : Reference) : List UInt8 :=
  child.address.1 ++ encode 8 child.length

def chunkObject (data : List UInt8) : List UInt8 := header 1 ++ data

def totalLength (children : List Reference) : Nat := (children.map Reference.length).sum

def branchObject (height : Nat) (children : List Reference) : List UInt8 :=
  header 2 ++ ([UInt8.ofNat height] ++ (encode 8 (totalLength children) ++
    (encode 2 children.length ++ children.flatMap putReference)))

def rootObject (height : Nat) (child : Reference) : List UInt8 :=
  header 3 ++ ([UInt8.ofNat height] ++ (encode 8 child.length ++ child.address.1))

/-- Thirty-two bytes as an address; the callers have checked the length. -/
def toAddress (bytes : List UInt8) : Address :=
  if exact : bytes.length = 32 then ⟨bytes, exact⟩ else ⟨List.replicate 32 0, length_replicate⟩

def reference (bytes : List UInt8) : Reference :=
  ⟨toAddress (bytes.take 32), decode ((bytes.drop 32).take 8)⟩

/-- `chunks_exact(40)`. -/
def splitReferences (bytes : List UInt8) : List Reference :=
  if 40 ≤ bytes.length then reference (bytes.take 40) :: splitReferences (bytes.drop 40) else []
termination_by bytes.length
decreasing_by
  rw [length_drop]
  omega

/-- Every child is full but the last, which is not empty. -/
def packed (maximum : Nat) : List Reference → Bool
  | [] => true
  | [last] => last.length ≠ 0 && last.length ≤ maximum
  | child :: rest => child.length ≠ 0 && child.length == maximum && packed maximum rest

section Hashed

variable (sha256 : List UInt8 → Address)

def address (bytes : List UInt8) : Address := sha256 (domain ++ bytes)

def decodeBranch (bytes : List UInt8) : Except Error Object :=
  let height := (bytes.getD 10 0).toNat
  let length := decode ((bytes.drop 11).take 8)
  let count := decode ((bytes.drop 19).take 2)
  if height = 0 ∨ maxHeight < height ∨ count = 0 ∨ fanout < count ∨
      bytes.length ≠ 21 + count * 40 then .error (.invalid "content branch bounds")
  else
    let children := splitReferences (bytes.drop 21)
    if packed (capacity (height - 1)) children = false then
      .error (.invalid "content branch packing")
    else if totalLength children ≠ length then .error (.invalid "content branch length")
    else .ok (.branch height children)

def decodeRoot (bytes : List UInt8) : Except Error Object :=
  let height := (bytes.getD 10 0).toNat
  let length := decode ((bytes.drop 11).take 8)
  match heightFor length with
  | .error e => .error e
  | .ok expected =>
    if expected ≠ height then .error (.invalid "content root height")
    else .ok (.root height ⟨toAddress (bytes.drop 19), length⟩)

def decode (expected : Address) (bytes : List UInt8) : Except Error Object :=
  if headerBytes + chunkBytes < bytes.length then .error (.limit "content object bytes")
  else if bytes.length < headerBytes ∨ bytes.take 8 ≠ magic ∨ bytes.getD 8 0 ≠ 1 then
    .error (.invalid "content header or version")
  else if address sha256 bytes ≠ expected then .error .hashMismatch
  else if bytes.getD 9 0 = 1 then .ok (.chunk (bytes.drop headerBytes))
  else if bytes.getD 9 0 = 2 ∧ 21 ≤ bytes.length then decodeBranch bytes
  else if bytes.getD 9 0 = 3 ∧ bytes.length = 51 then decodeRoot bytes
  else .error (.invalid "content object kind or size")

/-- The check that the store makes of an object of this kind; `other` is that of the
remaining kinds. -/
def validateStored (other : Address → List UInt8 → Except Error Unit) (expected : Address)
    (bytes : List UInt8) : Except Error Unit :=
  if bytes.take 8 = magic then (decode sha256 expected bytes).map fun _ => ()
  else other expected bytes

/-- Portions that a reader returns, one after the other; none is empty. -/
abbrev Input := List (List UInt8)

/-- Read until the buffer is full or the input ends. -/
def fill : Nat → Input → List UInt8 × Input
  | _, [] => ([], [])
  | room, portion :: rest =>
    if room = 0 then ([], portion :: rest)
    else if portion = [] then ([], rest)
    else if portion.length ≤ room then
      let more := fill (room - portion.length) rest
      (portion ++ more.1, more.2)
    else (portion.take room, portion.drop room :: rest)

section Builder

variable (other : Address → List UInt8 → Except Error Unit)

def encoded (bytes : List UInt8) : EStateM Error Writer Address :=
  Writer.encoded (validateStored sha256 other) (address sha256 bytes) bytes

def branch (height : Nat) (children : List Reference) : EStateM Error Writer Reference := do
  let address ← encoded sha256 other (branchObject height children)
  pure ⟨address, totalLength children⟩

/-- Add a child to the levels from `level` on; a branch that is full moves up. -/
def push : (level : Nat) → List (List Reference) → Reference →
    EStateM Error Writer (List (List Reference))
  | _, [], _ => throw (.limit "content tree height")
  | level, refs :: up, child =>
    let refs := refs ++ [child]
    if refs.length < fanout then pure (refs :: up)
    else if level = maxHeight then throw (.limit "content tree height")
    else do
      let child ← branch sha256 other (level + 1) refs
      let up ← push (level + 1) up child
      pure ([] :: up)

/-- Close the open branches from the lowest level on. -/
def finish : (remaining level : Nat) → List (List Reference) →
    EStateM Error Writer (Nat × Reference)
  | 0, _, _ => throw (.invalid "empty content frontier")
  | _ + 1, _, [] => throw (.invalid "empty content frontier")
  | remaining + 1, level, refs :: up =>
    match refs with
    | [] => finish remaining (level + 1) up
    | child :: more =>
      if more = [] ∧ up.all List.isEmpty then pure (level, child)
      else if level = maxHeight then throw (.limit "content tree height")
      else do
        let child ← branch sha256 other (level + 1) (child :: more)
        let up ← push sha256 other (level + 1) up child
        finish remaining (level + 1) up

theorem fill_length (room : Nat) (input : Input) :
    (fill room input).1.length + (fill room input).2.flatten.length ≤ input.flatten.length := by
  induction input generalizing room with
  | nil => simp [fill]
  | cons portion rest ih =>
    have later := ih (room - portion.length)
    rw [fill]
    split
    · simp
    split
    · simp_all
    · split
      · simp only [length_append, flatten_cons]
        omega
      · simp only [length_take, length_drop, length_append, flatten_cons]
        omega

/-- Cut the input into chunks and push them. An empty input is one empty chunk. -/
def writeChunks (input : Input) (first : Bool) (levels : List (List Reference)) :
    EStateM Error Writer (List (List Reference)) :=
  let filled := fill chunkBytes input
  if filled.1 = [] ∧ first = false then pure levels
  else do
    let address ← encoded sha256 other (chunkObject filled.1)
    let levels ← push sha256 other 0 levels ⟨address, filled.1.length⟩
    if _short : filled.1.length < chunkBytes then pure levels
    else writeChunks filled.2 false levels
termination_by input.flatten.length
decreasing_by
  have positive : 0 < chunkBytes := by decide
  have cut := fill_length chunkBytes input
  have long : chunkBytes ≤ (fill chunkBytes input).1.length := Nat.not_lt.1 _short
  omega

def writeWithWriter (input : Input) : EStateM Error Writer Address := do
  let levels ← writeChunks sha256 other input true (List.replicate (maxHeight + 1) [])
  let top ← finish sha256 other (maxHeight + 1) 0 levels
  encoded sha256 other (rootObject top.1 top.2)

def write (store : Store) (input : Input) (limits : Limits) :
    EStateM.Result Error Writer (Address × WriteStats) :=
  (do
    let root ← writeWithWriter sha256 other input
    Writer.flush (validateStored sha256 other)
    let writer ← get
    pure (root, writer.stats)) (Writer.start store limits)

end Builder

/-- The references on the stack, the top one first. The budget of objects goes down with
every object that is read. -/
def readLoop (store : Store) : (maxObjects maxBytes : Nat) → List (Nat × Reference) →
    EStateM Error (List UInt8) Unit
  | _, _, [] => pure ()
  | 0, _, _ :: _ => throw (.limit "objects")
  | maxObjects + 1, maxBytes, (height, child) :: stack =>
    match store.get child.address with
    | .error e => throw e
    | .ok bytes =>
      if maxBytes < bytes.length then throw (.limit "bytes")
      else
        match decode sha256 child.address bytes with
        | .error e => throw e
        | .ok (.chunk data) =>
          if height = 0 ∧ data.length = child.length then do
            modify (· ++ data)
            readLoop store maxObjects (maxBytes - bytes.length) stack
          else throw (.invalid "content reference type, height or length")
        | .ok (.branch actual children) =>
          if 0 < height ∧ actual = height then
            if totalLength children ≠ child.length then
              throw (.invalid "content reference length")
            else if maxObjects < stack.length + children.length then throw (.limit "objects")
            else
              readLoop store maxObjects (maxBytes - bytes.length)
                (children.map (fun entry => (height - 1, entry)) ++ stack)
          else throw (.invalid "content reference type, height or length")
        | .ok (.root ..) => throw (.invalid "content reference type, height or length")

/-- The state is what has been written to the output. -/
def readInto (store : Store) (root : Address) (limits : Limits) :
    EStateM Error (List UInt8) Nat :=
  if limits.maxObjects = 0 then throw (.limit "objects")
  else
    match store.get root with
    | .error e => throw e
    | .ok bytes =>
      match limits.consume bytes.length with
      | .error e => throw e
      | .ok limits =>
        match decode sha256 root bytes with
        | .error e => throw e
        | .ok (.root height child) =>
          if limits.maxBytes < child.length then throw (.limit "bytes")
          else do
            readLoop sha256 store limits.maxObjects limits.maxBytes [(height, child)]
            pure child.length
        | .ok _ => throw (.invalid "expected content root")

end Hashed

end Dynodoc.Checkpoint.Content
