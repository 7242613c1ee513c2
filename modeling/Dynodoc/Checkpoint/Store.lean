import Dynodoc.Lib.Effect

/-! The object store of one document and its batching writer. Objects are bytes under
the address that is their hash; the check of an object at its address is a parameter of
the store, so that every kind of object can be kept in it. -/
namespace Dynodoc.Checkpoint
open List Nat Effect

variable {bytes : List UInt8} {count size : Nat} {rich : Prop}

/-- A SHA-256 digest; the source spells it in hexadecimal. -/
abbrev Address := { bytes : List UInt8 // bytes.length = 32 }

variable {good : Address → List UInt8 → Prop} {a : Address}

def plainAddress (n : UInt8) : Address := ⟨List.replicate 32 n, length_replicate⟩

inductive Error where
  | limit (what : String)
  | invalid (what : String)
  | missing (address : Address)
  | hashMismatch
  | json
  | io (what : String)
  deriving DecidableEq

variable {validate : Address → List UInt8 → Except Error Unit}

structure Limits where
  maxObjects : Nat
  maxBytes : Nat
  deriving DecidableEq, Repr

variable {limits : Limits}

def Limits.consume (limits : Limits) (bytes : Nat) : Except Error Limits :=
  if limits.maxObjects = 0 then .error (.limit "objects")
  else if limits.maxBytes < bytes then .error (.limit "bytes")
  else .ok ⟨limits.maxObjects - 1, limits.maxBytes - bytes⟩

/-- The objects of the document at hand. -/
structure Store where
  objects : Address → Option (List UInt8)

variable {store : Store}

namespace Store

def empty : Store := ⟨fun _ => none⟩

variable (validate : Address → List UInt8 → Except Error Unit)

/-- True for an object that is new. -/
def put (address : Address) (bytes : List UInt8) : EStateM Error Store Bool := fun store =>
  match validate address bytes with
  | .error e => .error e store
  | .ok () =>
    match store.objects address with
    | some existing => if existing ≠ bytes then .error .hashMismatch store else .ok false store
    | none => .ok true ⟨fun other => if other = address then some bytes else store.objects other⟩

def putBatch : List (Address × List UInt8) → EStateM Error Store (List Bool)
  | [] => pure []
  | object :: rest => do
    let new ← put validate object.1 object.2
    let others ← putBatch rest
    pure (new :: others)

def get (store : Store) (address : Address) : Except Error (List UInt8) :=
  match store.objects address with
  | some bytes => .ok bytes
  | none => .error (.missing address)

end Store

structure WriteStats where
  visitedObjects : Nat
  encodedBytes : Nat
  newObjects : Nat
  newBytes : Nat
  deriving DecidableEq, Repr

structure Writer where
  store : Store
  budget : Limits
  stats : WriteStats
  pending : List (Address × List UInt8)
  pendingBytes : Nat

variable {w : Writer}

def maxObjectBytes : Nat := 1024 * 1024

def writeBatchObjects : Nat := 64

def writeBatchBytes : Nat := maxObjectBytes

namespace Writer

def start (store : Store) (limits : Limits) : Writer := ⟨store, limits, ⟨0, 0, 0, 0⟩, [], 0⟩

variable (validate : Address → List UInt8 → Except Error Unit)

def onStore {α : Type} (action : EStateM Error Store α) : EStateM Error Writer α := fun writer =>
  match action writer.store with
  | .ok a store => .ok a { writer with store }
  | .error e store => .error e { writer with store }

def countNew (stats : WriteStats) (written : (Address × List UInt8) × Bool) : WriteStats :=
  if written.2 then
    { stats with
      newObjects := stats.newObjects + 1
      newBytes := stats.newBytes + written.1.2.length }
  else stats

def flush : EStateM Error Writer Unit := do
  let writer ← get
  if writer.pending = [] then pure ()
  else
    let inserted ← onStore (Store.putBatch validate writer.pending)
    if inserted.length ≠ writer.pending.length then throw (.invalid "batch result length")
    else
      modify fun w => { w with
        stats := (writer.pending.zip inserted).foldl countNew w.stats
        pending := []
        pendingBytes := 0 }

/-- Spend the budget of one object. -/
def charge (bytes : Nat) : EStateM Error Writer Unit := fun writer =>
  match writer.budget.consume bytes with
  | .error e => .error e writer
  | .ok budget => .ok () { writer with
      budget
      stats := { writer.stats with
        visitedObjects := writer.stats.visitedObjects + 1
        encodedBytes := writer.stats.encodedBytes + bytes } }

/-- A full batch is written before the next object is added. -/
def makeRoom (bytes : Nat) : EStateM Error Writer Unit := do
  let writer ← get
  if writer.pending.length = writeBatchObjects ∨ writeBatchBytes < writer.pendingBytes + bytes then
    flush validate
  else pure ()

def encoded (address : Address) (bytes : List UInt8) : EStateM Error Writer Address := do
  charge bytes.length
  makeRoom validate bytes.length
  modify fun writer => { writer with
    pendingBytes := writer.pendingBytes + bytes.length
    pending := writer.pending ++ [(address, bytes)] }
  pure address

end Writer

/-- Objects that can be written without a clash: they are valid, and no two of them
have one address. -/
structure Trusted (validate : Address → List UInt8 → Except Error Unit)
    (good : Address → List UInt8 → Prop) : Prop where
  valid : ∀ a bytes, good a bytes → validate a bytes = .ok ()
  unique : ∀ a bytes bytes', good a bytes → good a bytes' → bytes' = bytes

/-- At the addresses of the good objects the store has nothing else. -/
def Store.Agrees (good : Address → List UInt8 → Prop) (store : Store) : Prop :=
  ∀ a bytes bytes', good a bytes → store.objects a = some bytes' → bytes' = bytes

structure Writer.Agrees (good : Address → List UInt8 → Prop) (w : Writer) : Prop where
  agrees : w.store.Agrees good
  pending : ∀ o ∈ w.pending, good o.1 o.2

/-- In the store or on the way to it. -/
def Writer.Knows (w : Writer) (a : Address) (bytes : List UInt8) : Prop :=
  (a, bytes) ∈ w.pending ∨ w.store.objects a = some bytes

def Writer.Grows (w w' : Writer) : Prop := ∀ a bytes, w.Knows a bytes → w'.Knows a bytes

section Specs

variable (trusted : Trusted validate good)

include trusted

open Store

theorem Store.put_ok (agrees : store.Agrees good) (object : good a bytes) :
    ∃ new store', put validate a bytes store = .ok new store' ∧ store'.Agrees good ∧
      store'.objects a = some bytes ∧
      ∀ b other, store.objects b = some other → store'.objects b = some other := by
  simp only [put, trusted.valid a bytes object]
  cases found : store.objects a with
  | some existing =>
    have same := agrees a bytes existing object found
    subst same
    simp only [ne_eq]
    exact ⟨false, store, rfl, agrees, found, fun _ _ => id⟩
  | none =>
    refine ⟨true, _, rfl, ?_, if_pos rfl, ?_⟩
    · intro b other bytes' known read
      dsimp only at read
      by_cases here : b = a
      · subst here
        rw [if_pos rfl] at read
        cases read
        exact trusted.unique b other bytes known object
      · rw [if_neg here] at read
        exact agrees b other bytes' known read
    · intro b other read
      have elsewhere : b ≠ a := by
        rintro rfl
        rw [found] at read
        contradiction
      exact (if_neg elsewhere).trans read

theorem Store.putBatch_ok {objects : List (Address × List UInt8)}
    (agrees : store.Agrees good) (all : ∀ o ∈ objects, good o.1 o.2) :
    ∃ inserted store', putBatch validate objects store = .ok inserted store' ∧
      inserted.length = objects.length ∧ store'.Agrees good ∧
      (∀ o ∈ objects, store'.objects o.1 = some o.2) ∧
      ∀ b other, store.objects b = some other → store'.objects b = some other := by
  induction objects generalizing store with
  | nil => exact ⟨[], store, rfl, rfl, agrees, by simp, fun _ _ => id⟩
  | cons object rest ih =>
    obtain ⟨new, middle, first, agrees', own, kept⟩ :=
      put_ok trusted agrees (all object mem_cons_self)
    obtain ⟨others, store', batch, length, agrees'', stored, kept'⟩ :=
      ih agrees' fun o mem => all o (mem_cons_of_mem _ mem)
    refine ⟨new :: others, store', ?_, congrArg succ length, agrees'', ?_, ?_⟩
    · rw [putBatch, bind_of_ok first, bind_of_ok batch]
      rfl
    · intro o mem
      rcases mem_cons.1 mem with rfl | mem
      · exact kept' _ _ own
      · exact stored o mem
    · exact fun b other read => kept' b other (kept b other read)

namespace Writer

theorem flush_ok (sound : w.Agrees good) :
    ∃ w', flush validate w = .ok () w' ∧ w'.Agrees good ∧ w.Grows w' ∧ w'.pending = [] ∧
      w'.budget = w.budget := by
  rw [flush, get_bind]
  by_cases none : w.pending = []
  · rw [if_pos none]
    exact ⟨w, rfl, sound, fun _ _ => id, none, rfl⟩
  · obtain ⟨inserted, store', batch, length, agrees, stored, kept⟩ :=
      putBatch_ok trusted sound.agrees sound.pending
    have lifted : onStore (putBatch validate w.pending) w =
        .ok inserted { w with store := store' } := by
      rw [onStore, batch]
    rw [if_neg none, bind_of_ok lifted, if_neg (not_not.2 length)]
    refine ⟨_, rfl, ⟨agrees, by simp⟩, ?_, rfl, rfl⟩
    rintro a bytes (waiting | known)
    · exact .inr (stored _ waiting)
    · exact .inr (kept a bytes known)

theorem makeRoom_ok (sound : w.Agrees good) (bytes : Nat) :
    ∃ w', makeRoom validate bytes w = .ok () w' ∧ w'.Agrees good ∧ w.Grows w' ∧
      w'.budget = w.budget := by
  rw [makeRoom, get_bind]
  split
  · obtain ⟨w', flushed, sound', grows, -, budget⟩ := flush_ok trusted sound
    exact ⟨w', flushed, sound', grows, budget⟩
  · exact ⟨w, rfl, sound, fun _ _ => id, rfl⟩

theorem encoded_ok (sound : w.Agrees good)
    (object : good a bytes) {budget : Limits} (paid : w.budget.consume bytes.length = .ok budget) :
    ∃ w', encoded validate a bytes w = .ok a w' ∧ w'.Agrees good ∧ w.Grows w' ∧
      w'.Knows a bytes ∧ w'.budget = budget := by
  have charged : charge bytes.length w = .ok () { w with
      budget
      stats := { w.stats with
        visitedObjects := w.stats.visitedObjects + 1
        encodedBytes := w.stats.encodedBytes + bytes.length } } := by
    rw [charge, paid]
  rw [encoded, bind_of_ok charged]
  have sound' : Writer.Agrees good { w with
      budget
      stats := { w.stats with
        visitedObjects := w.stats.visitedObjects + 1
        encodedBytes := w.stats.encodedBytes + bytes.length } } := ⟨sound.agrees, sound.pending⟩
  obtain ⟨w', room, sound'', grows, same⟩ := makeRoom_ok trusted sound' bytes.length
  rw [bind_of_ok room]
  refine ⟨_, rfl, ⟨sound''.agrees, ?_⟩, ?_, .inl (mem_append_right _ (by simp)), same⟩
  · intro o mem
    rcases mem_append.1 mem with mem | mem
    · exact sound''.pending o mem
    · rw [mem_singleton.1 mem]
      exact object
  · intro b other known
    rcases grows b other known with waiting | stored
    · exact .inl (mem_append_left _ waiting)
    · exact .inr stored

end Writer

end Specs

theorem Writer.encoded_error {e : Error} (broke : w.budget.consume bytes.length = .error e) :
    encoded validate a bytes w = .error e w := by
  have refused : charge bytes.length w = .error e w := by
    rw [charge, broke]
  simp [encoded, bind, EStateM.bind, refused]

structure Limits.Affords (size count : Nat) (limits : Limits) : Prop where
  objects : count ≤ limits.maxObjects
  bytes : count * size ≤ limits.maxBytes

theorem Limits.Affords.mono {count' : Nat}
    (affords : limits.Affords size count) (le : count' ≤ count) : limits.Affords size count' :=
  ⟨Nat.le_trans le affords.objects, Nat.le_trans (Nat.mul_le_mul_right size le) affords.bytes⟩

theorem Limits.Affords.consume {bytes : Nat}
    (affords : limits.Affords size (count + 1)) (fits : bytes ≤ size) :
    ∃ rest, limits.consume bytes = .ok rest ∧ rest.Affords size count := by
  obtain ⟨objects, room⟩ := affords
  rw [Nat.succ_mul] at room
  refine ⟨⟨limits.maxObjects - 1, limits.maxBytes - bytes⟩, ?_, ?_, ?_⟩
  · rw [Limits.consume, if_neg (by omega), if_neg (by omega)]
  · change count ≤ limits.maxObjects - 1
    omega
  · change count * size ≤ limits.maxBytes - bytes
    omega

theorem Limits.Affords.visit {bytes maxObjects maxBytes : Nat}
    (affords : Limits.Affords size (count + 1) ⟨maxObjects + 1, maxBytes⟩) (fits : bytes ≤ size) :
    bytes ≤ maxBytes ∧ Limits.Affords size count ⟨maxObjects, maxBytes - bytes⟩ := by
  obtain ⟨objects, room⟩ := affords
  rw [succ_mul] at room
  dsimp only at objects room
  refine ⟨by omega, le_of_succ_le_succ objects, ?_⟩
  dsimp only
  omega

/-- A writer that can pay for `count` more objects if its limits were large enough, which
is what `rich` says. -/
structure Writer.Ready (good : Address → List UInt8 → Prop) (rich : Prop) (size count : Nat)
    (w : Writer) : Prop extends Writer.Agrees good w where
  funded : rich → w.budget.Affords size count

theorem Writer.Ready.mono {count' : Nat} (ready : w.Ready good rich size count)
    (le : count' ≤ count) : w.Ready good rich size count' :=
  { ready with funded := fun enough => (ready.funded enough).mono le }

theorem Writer.encoded_ends (trusted : Trusted validate good) (object : good a bytes)
    (fits : bytes.length ≤ size) (ready : w.Ready good rich size (count + 1)) :
    Effect.Ends (encoded validate a bytes w)
      (fun result w' => result = a ∧ w'.Ready good rich size count ∧ w.Grows w' ∧ w'.Knows a bytes)
      (fun _ => ¬ rich) := by
  cases paid : w.budget.consume bytes.length with
  | error e =>
    rw [encoded_error paid]
    intro enough
    obtain ⟨rest, ok, -⟩ := (ready.funded enough).consume fits
    rw [paid] at ok
    contradiction
  | ok budget =>
    obtain ⟨w', ran, sound, grows, knows, left⟩ := encoded_ok trusted ready.toAgrees object paid
    rw [ran]
    refine ⟨rfl, { sound with funded := ?_ }, grows, knows⟩
    intro enough
    obtain ⟨rest, ok, affords⟩ := (ready.funded enough).consume fits
    rw [paid] at ok
    cases ok
    rw [left]
    exact affords

end Dynodoc.Checkpoint
