import Mathlib.Data.List.Sort
import Dynodoc.Document.Ops
import Dynodoc.Document.Wire
import Dynodoc.Lib.BigEndian

/-! The hash chain of a document's events. SHA-256, the JSON texts of scalars and the
database are parameters: the payload column is `jsonb`, so a payload is read back as the
database writes it. -/
namespace Dynodoc.Log

open Dynodoc (Value EventPayload NodeId canonicalJson)
open List

variable {previous : List UInt8} {seq : Int}

abbrev Uuid := { bytes : List UInt8 // bytes.length = 16 }

variable {document' : Uuid}

abbrev Digest := { bytes : List UInt8 // bytes.length = 32 }

instance digestLawfulBEq : LawfulBEq Digest := Subtype.instLawfulBEq

def zeroHash : List UInt8 := List.replicate 32 0

def i64Min : Int := -2 ^ 63

def i64Max : Int := 2 ^ 63 - 1

structure Event where
  id : String
  documentId : Uuid
  seq : Int
  eventType : String
  actorId : Uuid
  targetNodeId : Option NodeId
  payload : Value
  contentHash : List UInt8
  prevChainHash : List UInt8
  chainHash : List UInt8
  deriving DecidableEq

variable {table : List Event}

inductive EventError where
  | db (reason : String)
  | documentNotFound (document : Uuid)
  | chainBroken (seq : Int) (detail : String)
  /-- `prev_seq + 1` has no `i64`. -/
  | overflow
  deriving DecidableEq

def utf8 (s : String) : List UInt8 := s.toByteArray.data.toList

def asChars (bytes : List UInt8) : List Char := bytes.map Char.ofUInt8

def hexDigits : List UInt8 := utf8 "0123456789abcdef"

/-- The digits of each byte, the upper one first. -/
def hexBytes (bytes : List UInt8) : List UInt8 :=
  bytes.flatMap fun b => [hexDigits.getD (b.toNat / 16) 0, hexDigits.getD (b.toNat % 16) 0]

def hex (bytes : List UInt8) : String := String.ofList (asChars (hexBytes bytes))

/-- The canonical spelling with hyphens. -/
def uuidText (id : Uuid) : String :=
  String.ofList (['-'].intercalate ([(0, 4), (4, 2), (6, 2), (8, 2), (10, 6)].map fun (i, n) =>
    asChars (hexBytes ((id.1.drop i).take n))))

/-- `u64::to_be_bytes`. -/
def toBeBytes (n : Nat) : List UInt8 := BigEndian.encode 8 n

/-- One field as it is fed to the digest: its length, then its bytes. -/
def feed (bytes : List UInt8) : List UInt8 := toBeBytes bytes.length ++ bytes

structure Hashing where
  text : Externals
  sha256 : List UInt8 → Digest

variable {env : Hashing}

namespace Hashing

variable (env : Hashing)

def canonicalJson (payload : Value) : List UInt8 := utf8 (Dynodoc.canonicalJson env.text payload)

def contentInput (eventType : String) (target : Option NodeId) (canonical : List UInt8)
    (actor : Uuid) : List UInt8 :=
  feed (utf8 eventType) ++ (feed (utf8 (target.getD "")) ++ (feed canonical ++ feed actor.1))

def contentHash (eventType : String) (target : Option NodeId) (canonical : List UInt8)
    (actor : Uuid) : Digest :=
  env.sha256 (contentInput eventType target canonical actor)

def chainHash (contentHash prevChainHash : List UInt8) : Digest :=
  env.sha256 (contentHash ++ prevChainHash)

def recompute (event : Event) : Digest :=
  env.contentHash event.eventType event.targetNodeId (env.canonicalJson event.payload)
    event.actorId

def verifyEvent (event : Event) (document : Uuid) (expectedSeq : Int) (previous : List UInt8) :
    Except EventError Unit :=
  if event.documentId ≠ document then
    .error (.chainBroken event.seq "document binding mismatch")
  else if event.seq ≠ expectedSeq then
    .error (.chainBroken event.seq ("expected seq " ++ toString expectedSeq ++ ", found " ++
      toString event.seq ++ " (gap or reorder)"))
  else if (env.recompute event).1 ≠ event.contentHash then
    .error (.chainBroken event.seq
      "content_hash mismatch (type, target, payload, or actor altered)")
  else if event.prevChainHash ≠ previous then
    .error (.chainBroken event.seq
      "prev_chain_hash does not match the prior event's chain_hash")
  else if (env.chainHash (env.recompute event).1 previous).1 ≠ event.chainHash then
    .error (.chainBroken event.seq "chain_hash mismatch")
  else .ok ()

/-- The loop of `verify_from` over the rows that are left. -/
def verifyEvents (document : Uuid) : List Event → Int → List UInt8 → Except EventError Unit
  | [], _, _ => .ok ()
  | event :: rest, seq, previous =>
    if seq = i64Max then
      .error (.chainBroken event.seq "event sequence exceeds the supported range")
    else
      match env.verifyEvent event document (seq + 1) previous with
      | .error e => .error e
      | .ok () => verifyEvents document rest (seq + 1) event.chainHash

end Hashing

/-- `select * from event where document_id = $1 and seq >= $2 order by seq asc`. -/
def select (table : List Event) (document : Uuid) (fromSeq : Int) : List Event :=
  (table.filter fun event => event.documentId = document ∧ fromSeq ≤ event.seq).insertionSort
    fun a b => a.seq ≤ b.seq

def Hashing.verifyFrom (env : Hashing) (table : List Event) (document : Uuid) (trustedSeq : Int)
    (trustedChainHash : List UInt8) : Except EventError Unit :=
  if trustedSeq < 0 ∨ trustedSeq = 0 ∧ trustedChainHash ≠ zeroHash then
    .error (.chainBroken trustedSeq "invalid trusted position (genesis must use 32 zero bytes)")
  else
    -- from the start every row is read, also one with a negative sequence
    let fromSeq := if trustedSeq = 0 then i64Min else trustedSeq
    let events := select table document fromSeq
    if trustedSeq = 0 then env.verifyEvents document events trustedSeq trustedChainHash
    else
      match events with
      | event :: rest =>
        if event.seq = trustedSeq ∧ event.chainHash = trustedChainHash then
          env.verifyEvents document rest trustedSeq trustedChainHash
        else if event.seq = trustedSeq then
          .error (.chainBroken trustedSeq "stored chain_hash differs from the trusted position")
        else .error (.chainBroken trustedSeq "trusted position not found")
      | [] => .error (.chainBroken trustedSeq "trusted position not found")

/-- The table of events in the database. -/
structure Database where
  /-- A JSON value as `jsonb` gives it back. -/
  jsonb : Value → Value
  hasDocument : Uuid → Bool
  /-- The constraints of the schema on a new row. -/
  admits : List Event → Event → Bool

structure AppendCall where
  /-- A fresh ULID. -/
  eventId : String
  document : Uuid
  payload : EventPayload
  actor : Uuid

def newRow (env : Hashing) (db : Database) (call : AppendCall) (prevSeq : Int)
    (prevChainHash : List UInt8) : Event :=
  let value := call.payload.toJson
  let content := env.contentHash call.payload.eventType call.payload.targetNodeId
    (env.canonicalJson value) call.actor
  { id := call.eventId, documentId := call.document, seq := prevSeq + 1,
    eventType := call.payload.eventType, actorId := call.actor,
    targetNodeId := call.payload.targetNodeId, payload := db.jsonb value,
    contentHash := content.1, prevChainHash,
    chainHash := (env.chainHash content.1 prevChainHash).1 }

def appendInTx (env : Hashing) (db : Database) (table : List Event) (call : AppendCall) :
    Except EventError (Event × List Event) :=
  if db.hasDocument call.document = false then .error (.documentNotFound call.document)
  else
    let prev := (select table call.document i64Min).getLast?
    let prevSeq := (prev.map Event.seq).getD 0
    let prevChainHash := (prev.map Event.chainHash).getD zeroHash
    if prevSeq = i64Max then .error .overflow
    else
      let row := newRow env db call prevSeq prevChainHash
      if db.admits table row = false then .error (.db "constraint violated")
      else .ok (row, table ++ [row])

/-- One call on the table; a call that fails is rolled back. -/
def append (env : Hashing) (db : Database) (table : List Event) (call : AppendCall) : List Event :=
  match appendInTx env db table call with
  | .ok inserted => inserted.2
  | .error _ => table

def appendAll (env : Hashing) (db : Database) (calls : List AppendCall) : List Event :=
  calls.foldl (append env db) []

theorem utf8_injective {s t : String} (same : utf8 s = utf8 t) : s = t :=
  String.toByteArray_inj.1 (ByteArray.ext (Array.toList_inj.1 same))

theorem toBeBytes_length (n : Nat) : (toBeBytes n).length = 8 := BigEndian.encode_length 8 n

theorem feed_append {bytes bytes' rest rest' : List UInt8} (small : bytes.length < 2 ^ 64)
    (small' : bytes'.length < 2 ^ 64) (same : feed bytes ++ rest = feed bytes' ++ rest') :
    bytes = bytes' ∧ rest = rest' := by
  rw [feed, feed, append_assoc, append_assoc] at same
  obtain ⟨lengths, same⟩ := append_inj same
    ((toBeBytes_length _).trans (toBeBytes_length _).symm)
  exact append_inj same (BigEndian.encode_injective small small' lengths)

/-- What the chain says about an event. -/
structure SameContent (env : Hashing) (e e' : Event) : Prop where
  eventType : e.eventType = e'.eventType
  target : e.targetNodeId.getD "" = e'.targetNodeId.getD ""
  payload : env.canonicalJson e.payload = env.canonicalJson e'.payload
  actor : e.actorId = e'.actorId

/-- The texts of a row are shorter than `2 ^ 64` bytes, as anything in memory is. -/
structure InMemory (env : Hashing) (e : Event) : Prop where
  eventType : (utf8 e.eventType).length < 2 ^ 64
  target : (utf8 (e.targetNodeId.getD "")).length < 2 ^ 64
  payload : (env.canonicalJson e.payload).length < 2 ^ 64

instance (env : Hashing) (e : Event) : Decidable (InMemory env e) :=
  decidable_of_iff ((utf8 e.eventType).length < 2 ^ 64 ∧
    (utf8 (e.targetNodeId.getD "")).length < 2 ^ 64 ∧ (env.canonicalJson e.payload).length < 2 ^ 64)
    ⟨fun ⟨a, b, c⟩ => ⟨a, b, c⟩, fun ⟨a, b, c⟩ => ⟨a, b, c⟩⟩

/-- The two texts that are hashed for a row. -/
def Hashing.inputs (env : Hashing) (e : Event) : List (List UInt8) :=
  [Hashing.contentInput e.eventType e.targetNodeId (env.canonicalJson e.payload) e.actorId,
    (env.recompute e).1 ++ e.prevChainHash]

section Verify

variable {document : Uuid}
variable {e : Event} {l : List Event}

/-- What an accepted row satisfies. -/
structure Accepted (env : Hashing) (document : Uuid) (seq : Int) (previous : List UInt8)
    (e : Event) : Prop where
  own : e.documentId = document
  place : e.seq = seq
  content : (env.recompute e).1 = e.contentHash
  linked : e.prevChainHash = previous
  chain : (env.chainHash (env.recompute e).1 previous).1 = e.chainHash

open Hashing

theorem verifyEvent_ok :
    env.verifyEvent e document seq previous = .ok () ↔ Accepted env document seq previous e := by
  rw [verifyEvent]
  constructor
  · intro accepted
    repeat' split at accepted
    all_goals first | contradiction | skip
    constructor <;> simp_all
  · intro accepted
    rw [if_neg (not_not.2 accepted.own), if_neg (not_not.2 accepted.place),
      if_neg (not_not.2 accepted.content), if_neg (not_not.2 accepted.linked),
      if_neg (not_not.2 accepted.chain)]

theorem verifyEvents_cons {rest : List Event} :
    env.verifyEvents document (e :: rest) seq previous = .ok () ↔
      seq ≠ i64Max ∧ Accepted env document (seq + 1) previous e ∧
        env.verifyEvents document rest (seq + 1) e.chainHash = .ok () := by
  rw [verifyEvents, ← verifyEvent_ok]
  by_cases last : seq = i64Max
  · simp [last]
  · rw [if_neg last]
    cases checked : env.verifyEvent e document (seq + 1) previous with
    | error reason => simp
    | ok => simp [last]

theorem verifyEvents_append : env.verifyEvents document (l ++ [e]) seq previous = .ok () ↔
      env.verifyEvents document l seq previous = .ok () ∧ seq + l.length ≠ i64Max ∧
        Accepted env document (seq + l.length + 1)
          ((l.getLast?.map Event.chainHash).getD previous) e := by
  induction l generalizing seq previous with
  | nil =>
    rw [nil_append, verifyEvents_cons]
    simp [verifyEvents]
  | cons first l ih =>
    have next : seq + 1 + (l.length : Int) = seq + (first :: l).length := by
      rw [length_cons]
      omega
    have last : (l.getLast?.map Event.chainHash).getD first.chainHash =
        ((first :: l).getLast?.map Event.chainHash).getD previous := by
      rw [getLast?_cons]
      cases l.getLast? <;> rfl
    rw [cons_append, verifyEvents_cons, verifyEvents_cons, ih, next, last]
    simp [and_assoc]

variable {previous' : List UInt8} {seq' : Int}

theorem Accepted.step_back {e e' : Event} (accepted : Accepted env document seq previous e)
    (accepted' : Accepted env document' seq' previous' e') (inMemory : InMemory env e)
    (inMemory' : InMemory env e')
    (distinct : ∀ x ∈ env.inputs e, ∀ y ∈ env.inputs e', env.sha256 x = env.sha256 y → x = y)
    (same : e.chainHash = e'.chainHash) : SameContent env e e' ∧ previous = previous' := by
  have chains : env.sha256 ((env.recompute e).1 ++ e.prevChainHash) =
      env.sha256 ((env.recompute e').1 ++ e'.prevChainHash) := by
    apply Subtype.ext
    rw [accepted.linked, accepted'.linked]
    exact accepted.chain.trans (same.trans accepted'.chain.symm)
  have joined := distinct _ (by simp [inputs]) _ (by simp [inputs]) chains
  obtain ⟨contents, links⟩ := append_inj joined
    ((env.recompute e).2.trans (env.recompute e').2.symm)
  have texts := distinct _ (by simp [inputs]) _ (by simp [inputs])
    (Subtype.ext contents)
  obtain ⟨types, texts⟩ := feed_append inMemory.eventType inMemory'.eventType texts
  obtain ⟨targets, texts⟩ := feed_append inMemory.target inMemory'.target texts
  obtain ⟨payloads, actors⟩ := feed_append inMemory.payload inMemory'.payload texts
  have actor := (append_inj actors (by rw [toBeBytes_length, toBeBytes_length])).2
  exact ⟨⟨utf8_injective types, utf8_injective targets, payloads, Subtype.ext actor⟩,
    by rw [← accepted.linked, ← accepted'.linked, links]⟩

/-- The last hash of a chain settles what is before it. -/
theorem verifyEvents_binding {l l' : List Event}
    (accepted : env.verifyEvents document l seq previous = .ok ())
    (accepted' : env.verifyEvents document' l' seq' previous' = .ok ())
    (length : l.length = l'.length) (inMemory : ∀ e ∈ l, InMemory env e)
    (inMemory' : ∀ e ∈ l', InMemory env e)
    (distinct : ∀ x ∈ l.flatMap env.inputs, ∀ y ∈ l'.flatMap env.inputs,
      env.sha256 x = env.sha256 y → x = y) (last : (l.getLast?.map Event.chainHash).getD previous =
      (l'.getLast?.map Event.chainHash).getD previous') :
    List.Forall₂ (SameContent env) l l' ∧ previous = previous' := by
  induction l generalizing l' seq seq' previous previous' with
  | nil =>
    cases l' with
    | nil => exact ⟨.nil, last⟩
    | cons e' l' => contradiction
  | cons e l ih =>
    cases l' with
    | nil => contradiction
    | cons e' l' =>
      obtain ⟨-, head, tail⟩ := verifyEvents_cons.1 accepted
      obtain ⟨-, head', tail'⟩ := verifyEvents_cons.1 accepted'
      have ends : (l.getLast?.map Event.chainHash).getD e.chainHash =
          (l'.getLast?.map Event.chainHash).getD e'.chainHash := by
        rw [getLast?_cons, getLast?_cons] at last
        cases found : l.getLast? <;> cases found' : l'.getLast? <;> simpa [found, found'] using last
      have later := ih tail tail' (Nat.succ.inj length)
        (fun e mem => inMemory e (mem_cons_of_mem _ mem))
        (fun e mem => inMemory' e (mem_cons_of_mem _ mem))
        (fun x mem y mem' => distinct x (by simp [mem_flatMap.1 mem]) y
          (by simp [mem_flatMap.1 mem'])) ends
      have here := head.step_back head' (inMemory e mem_cons_self)
        (inMemory' e' mem_cons_self)
        (fun x mem y mem' => distinct x (by simp [mem]) y (by simp [mem'])) later.2
      exact ⟨.cons here.1 later.1, here.2⟩

section Accepted

variable (accepted : env.verifyEvents document l seq previous = .ok ())

include accepted

theorem verifyEvents_sorted :
    (∀ e ∈ l, seq < e.seq) ∧ l.Pairwise fun a b => a.seq ≤ b.seq := by
  induction l generalizing seq previous with
  | nil => exact ⟨by simp, .nil⟩
  | cons e l ih =>
    obtain ⟨-, head, tail⟩ := verifyEvents_cons.1 accepted
    obtain ⟨later, sorted⟩ := ih tail
    have place := head.place
    refine ⟨?_, .cons (fun other mem => ?_) sorted⟩
    · intro other mem
      rcases mem_cons.1 mem with rfl | mem
      · omega
      have after := later other mem
      omega
    · have after := later other mem
      omega

theorem verifyEvents_last :
    (l.getLast?.map Event.seq).getD seq = seq + l.length := by
  cases l using List.reverseRecOn with
  | nil => simp
  | append_singleton l e =>
    obtain ⟨-, -, own⟩ := verifyEvents_append.1 accepted
    rw [getLast?_concat, Option.map_some, Option.getD_some, own.place, length_append,
      length_singleton]
    omega

end Accepted

end Verify

section Append

variable {db : Database}

def rowsOf (table : List Event) (document : Uuid) : List Event :=
  table.filter fun event => event.documentId = document

def Intact (env : Hashing) (table : List Event) : Prop :=
  ∀ document, env.verifyEvents document (rowsOf table document) 0 zeroHash = .ok ()

theorem Intact.select_eq (intact : Intact env table) (document : Uuid) :
    select table document i64Min = rowsOf table document := by
  obtain ⟨positive, sorted⟩ := verifyEvents_sorted (intact document)
  have all : (table.filter fun event => event.documentId = document ∧ i64Min ≤ event.seq) =
      rowsOf table document := by
    apply filter_congr
    intro event mem
    by_cases own : event.documentId = document
    · have after := positive event (by simp [rowsOf, mem, own])
      have low : i64Min ≤ event.seq := by
        have floor : i64Min ≤ 0 := by decide
        omega
      simp [low]
    · simp [own]
  rw [select, all]
  exact sorted.insertionSort_eq

theorem Intact.append (intact : Intact env table) {call : AppendCall}
    (stable : env.canonicalJson (db.jsonb call.payload.toJson) =
      env.canonicalJson call.payload.toJson) : Intact env (append env db table call) := by
  rw [Log.append]
  cases result : appendInTx env db table call with
  | error e => exact intact
  | ok inserted =>
    rw [appendInTx, intact.select_eq] at result
    simp only [verifyEvents_last (intact call.document), Int.zero_add] at result
    repeat' split at result
    all_goals first | contradiction | skip
    cases result
    intro document
    rw [rowsOf, filter_append, ← rowsOf]
    by_cases own : call.document = document
    · subst own
      have mine : [newRow env db call ((rowsOf table call.document).length)
          (((rowsOf table call.document).getLast?.map Event.chainHash).getD zeroHash)].filter
            (fun event => event.documentId = call.document) = [newRow env db call
          ((rowsOf table call.document).length)
          (((rowsOf table call.document).getLast?.map Event.chainHash).getD zeroHash)] := by
        simp [newRow]
      rw [mine, verifyEvents_append]
      refine ⟨intact _, by rwa [Int.zero_add], ⟨rfl, by rw [Int.zero_add]; rfl, ?_, rfl, ?_⟩⟩
      all_goals simp only [Hashing.recompute, newRow, stable]
    · have other (n : Int) (hash : List UInt8) : [newRow env db call n hash].filter
          (fun event => event.documentId = document) = [] := by
        simp [newRow, own]
      rw [other, append_nil]
      exact intact document

theorem appendAll_intact {calls : List AppendCall}
    (stable : ∀ call ∈ calls, env.canonicalJson (db.jsonb call.payload.toJson) =
      env.canonicalJson call.payload.toJson) : Intact env (appendAll env db calls) := by
  have run : ∀ table, Intact env table → Intact env (calls.foldl (Log.append env db) table) := by
    induction calls with
    | nil => exact fun _ => id
    | cons call calls ih =>
      intro table intact
      exact ih (fun other mem => stable other (mem_cons_of_mem _ mem)) _
        (intact.append (stable call mem_cons_self))
  exact run [] fun document => rfl

end Append

theorem verifyFrom_genesis (env : Hashing) (table : List Event) (document : Uuid) :
    env.verifyFrom table document 0 zeroHash =
      env.verifyEvents document (select table document i64Min) 0 zeroHash := by
  simp [Hashing.verifyFrom]

/-! Hashing and a database by which logs can be computed. -/

/-- Decimal digits; a whole float from `1e16` on is written with an exponent, as
`serde_json` does, and no other float occurs here. -/
def exponentText : Number → String
  | .int n => toString n
  | .float q =>
    let digits := Nat.toDigits 10 q.num.natAbs
    let mantissa := (digits.reverse.dropWhile (· = '0')).reverse
    String.ofList (mantissa.take 1 ++ (if mantissa.length ≤ 1 then [] else '.' :: mantissa.drop 1)) ++
      "e+" ++ toString (digits.length - 1)

/-- The length and a weighted sum, in 32 bytes. -/
def sumDigest (bytes : List UInt8) : Digest :=
  let sum := bytes.foldl (fun sum byte => (sum * 257 + byte.toNat + 1) % 2 ^ 128) bytes.length
  ⟨List.ofFn fun i : Fin 32 => UInt8.ofNat (sum / 256 ^ i.val), by simp⟩

def sumHashing : Hashing := ⟨{ plainExternals with numberText := exponentText }, sumDigest⟩

/-- Numbers entered with an exponent are printed without it, so a whole number that
fits an integer type is read back as an integer. -/
def jsonbNumber : Number → Number
  | .int n => .int n
  | .float q =>
    if q.den = 1 ∧ 10 ^ 16 ≤ q.num.natAbs ∧ -2 ^ 63 ≤ q.num ∧ q.num < 2 ^ 64 then .int q.num
    else .float q

def jsonbValue : Value → Value
  | .null => .null
  | .bool b => .bool b
  | .num n => .num (jsonbNumber n)
  | .str s => .str s
  | .arr n items => .arr n fun i => jsonbValue (items i)
  | .obj ks f => .obj ks fun key => jsonbValue (f key)

def jsonbDatabase : Database := ⟨jsonbValue, fun _ => true, fun _ _ => true⟩

def plainUuid (n : UInt8) : Uuid := ⟨List.replicate 16 n, length_replicate⟩

/-- An edit whose value is the number `1e16` is hashed with the exponent and read back
without it. -/
theorem exponent_breaks_the_chain :
    sumHashing.verifyFrom (appendAll sumHashing jsonbDatabase
      [⟨"e1", plainUuid 1, .fieldEdited "n1" "weight" (.num (.float ((10 ^ 16 : Int) : Rat))),
        plainUuid 2⟩]) (plainUuid 1) 0 zeroHash =
      .error (.chainBroken 1 "content_hash mismatch (type, target, payload, or actor altered)") := by
  decide +kernel

/-- The last hash of an accepted log settles every event in it, and what `append` writes
is accepted as long as the database gives payloads back as they were hashed. -/
theorem chain_binds_the_log (env : Hashing) :
    (∀ (table table' : List Event) (document document' : Uuid),
      env.verifyFrom table document 0 zeroHash = .ok () →
      env.verifyFrom table' document' 0 zeroHash = .ok () →
      (select table document i64Min).length = (select table' document' i64Min).length →
      (∀ e ∈ select table document i64Min, InMemory env e) →
      (∀ e ∈ select table' document' i64Min, InMemory env e) →
      (∀ x ∈ (select table document i64Min).flatMap env.inputs,
        ∀ y ∈ (select table' document' i64Min).flatMap env.inputs,
          env.sha256 x = env.sha256 y → x = y) →
      (select table document i64Min).getLast?.map Event.chainHash =
        (select table' document' i64Min).getLast?.map Event.chainHash →
      List.Forall₂ (SameContent env) (select table document i64Min)
        (select table' document' i64Min)) ∧
    ∀ (db : Database) (calls : List AppendCall),
      (∀ call ∈ calls, env.canonicalJson (db.jsonb call.payload.toJson) =
        env.canonicalJson call.payload.toJson) →
      ∀ document, env.verifyFrom (appendAll env db calls) document 0 zeroHash = .ok () := by
  constructor
  · intro table table' document document' accepted accepted' length inMemory inMemory' distinct last
    rw [verifyFrom_genesis] at accepted accepted'
    exact (verifyEvents_binding accepted accepted' length inMemory inMemory' distinct
      (by rw [last])).1
  · intro db calls stable document
    have intact := appendAll_intact stable
    rw [verifyFrom_genesis, intact.select_eq]
    exact intact document

def firstEdit : AppendCall := ⟨"e1", plainUuid 1, .fieldEdited "n1" "label" (.str "a"), plainUuid 2⟩

def secondEdit : AppendCall := ⟨"e2", plainUuid 1, .commentAdded none "b", plainUuid 2⟩

/-- The same two events under other ids in another document. -/
def copied (call : AppendCall) : AppendCall := { call with eventId := "c", document := plainUuid 3 }

/-- A copied chain has the same content, and both are accepted. -/
theorem copied_chain_binds :
    List.Forall₂ (SameContent sumHashing)
      (select (appendAll sumHashing jsonbDatabase [firstEdit, secondEdit]) (plainUuid 1) i64Min)
      (select (appendAll sumHashing jsonbDatabase [copied firstEdit, copied secondEdit])
        (plainUuid 3) i64Min) ∧
    sumHashing.verifyFrom (appendAll sumHashing jsonbDatabase [firstEdit, secondEdit])
      (plainUuid 1) 0 zeroHash = .ok () := by
  have accepted := (chain_binds_the_log sumHashing).2 jsonbDatabase [firstEdit, secondEdit]
    (by decide +kernel) (plainUuid 1)
  have accepted' := (chain_binds_the_log sumHashing).2 jsonbDatabase
    [copied firstEdit, copied secondEdit] (by decide +kernel) (plainUuid 3)
  exact ⟨(chain_binds_the_log sumHashing).1 _ _ _ _ accepted accepted' (by decide +kernel)
    (by decide +kernel) (by decide +kernel) (by decide +kernel) (by decide +kernel), accepted⟩

end Dynodoc.Log
