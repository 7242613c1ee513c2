import Dynodoc.Lib.Voting
import Dynodoc.Transparency.Note

/-! The trust policy of a client: its loader, and whether two quorums share a witness. Reading
the JSON members is a parameter. -/
namespace Dynodoc.Transparency
open Log (utf8 hex)
open Loop Text Voting VerifierKey

inductive OnFailure where
  | warn
  | reject
  deriving DecidableEq

/-- Where the source keeps the text of another error, the error itself stands here. -/
inductive PolicyError where
  | json (reason : String)
  | version (version : Nat)
  | origin (reason : Error)
  | logKey (reason : Error)
  | logKeyKind
  | logKeyName (origin key : String)
  | witnessKey (name : String) (reason : Error)
  | witnessKeyKind (name : String)
  | witnessName (name key : String)
  | duplicateWitnessName (name : String)
  | duplicateWitnessKey (name : String)
  | witnessIsLog (name : String)
  | operator (name : String)
  | thresholdZero
  | thresholdAboveWitnesses (threshold witnesses : Nat)
  | thresholdAboveOperators (threshold operators : Nat)
  | freshnessZero
  | onFailure (found : String)
  deriving DecidableEq

structure WitnessWire where
  name : String
  vkey : String
  operator : String

structure PolicyWire where
  version : Nat
  logOrigin : String
  logVkey : String
  witnesses : List WitnessWire
  threshold : Nat
  distinctOperators : Bool
  maxAgeSeconds : Nat
  onFailure : String

structure TrustPolicy extends Policy VerifierKey where
  onFailure : OnFailure

def originSuffix : List Char := "/dynodoc/v1/transparency".toList

def checkOrigin (origin : String) : Except Error String :=
  let chars := origin.toList
  if ¬ (utf8 origin).all (fun b => 0x21 ≤ b && b ≤ 0x7e) ∨ chars.any (· ∈ ['+', '"', '\\']) then
    .error (.invalidOrigin "only printable ASCII without '+', quote or backslash")
  else if (rfind "://".toList chars).isSome then .error (.invalidOrigin "must be a schema-less URL")
  else
    let host := chars.take (chars.length - originSuffix.length)
    if originSuffix.isSuffixOf chars ∧ host ≠ [] ∧ '/' ∉ host then .ok origin
    else .error (.invalidOrigin "must be <host>/dynodoc/v1/transparency")

section Loading

variable {Pair : Type} (env : Signing Pair)

def addWitness (origin : String) (log : VerifierKey) (witnesses : List (Witness VerifierKey))
    (w : WitnessWire) : Except PolicyError (List (Witness VerifierKey)) :=
  match parse env w.vkey with
  | .error reason => .error (.witnessKey w.name reason)
  | .ok key =>
    if key.kind ≠ .cosigner then .error (.witnessKeyKind w.name)
    else if key.name ≠ w.name then .error (.witnessName w.name key.name)
    else if w.name = origin ∨ key.publicKey = log.publicKey then .error (.witnessIsLog w.name)
    else if w.name ∈ witnesses.map Witness.name then .error (.duplicateWitnessName w.name)
    else if key.publicKey ∈ witnesses.map fun known => known.key.publicKey then
      .error (.duplicateWitnessKey w.name)
    else if w.operator = "" ∨ w.operator.toList.any isControl then .error (.operator w.name)
    else .ok (witnesses ++ [⟨w.name, key, w.operator⟩])

def operatorsOf (witnesses : List (Witness VerifierKey)) : List String :=
  groups Witness.operator witnesses

def readOnFailure : String → Except PolicyError OnFailure
  | "warn" => .ok .warn
  | "reject" => .ok .reject
  | other => .error (.onFailure other)

def TrustPolicy.fromWire (wire : PolicyWire) : Except PolicyError TrustPolicy :=
  if wire.version ≠ 1 then .error (.version wire.version)
  else do
    let origin ← (checkOrigin wire.logOrigin).mapError .origin
    let log ← (parse env wire.logVkey).mapError .logKey
    if log.kind ≠ .log then .error .logKeyKind
    else if log.name ≠ origin then .error (.logKeyName origin log.name)
    else do
      let witnesses ← wire.witnesses.foldlM (addWitness env origin log) []
      let operators := (operatorsOf witnesses).length
      if wire.threshold = 0 then .error .thresholdZero
      else if wire.threshold > witnesses.length then
        .error (.thresholdAboveWitnesses wire.threshold witnesses.length)
      else if wire.distinctOperators ∧ wire.threshold > operators then
        .error (.thresholdAboveOperators wire.threshold operators)
      else if wire.maxAgeSeconds = 0 then .error .freshnessZero
      else do
        let onFailure ← readOnFailure wire.onFailure
        .ok ⟨⟨origin, log, witnesses, wire.threshold, wire.distinctOperators, wire.maxAgeSeconds⟩,
          onFailure⟩

def TrustPolicy.fromJson (readWire : List UInt8 → Except String PolicyWire) (bytes : List UInt8) :
    Except PolicyError TrustPolicy := do
  let wire ← (readWire bytes).mapError .json
  TrustPolicy.fromWire env wire

end Loading

def TrustPolicy.quorumIsMajority (policy : TrustPolicy) : Bool :=
  let voters := if policy.distinctOperators then (operatorsOf policy.witnesses).length
    else policy.witnesses.length
  2 * policy.threshold > voters

section Quorums

variable {Pair : Type} {policy : TrustPolicy}

/-- The cosigners of a checkpoint that some witnesses signed, each at its time. -/
def TrustPolicy.cosigners (policy : TrustPolicy) (times : Witness VerifierKey → Option Nat) :
    List Cosigner :=
  policy.witnesses.filterMap fun w => (times w).map fun time => ⟨w.name, w.operator, time⟩

def TrustPolicy.isFresh (policy : TrustPolicy) (times : Witness VerifierKey → Option Nat) (now : Nat)
    (w : Witness VerifierKey) : Bool :=
  (times w).any fun time => (time - now) + (now - time) ≤ policy.maxAgeSeconds

/-- The operators that hold two witnesses of the policy or more. -/
def TrustPolicy.sharedOperators (policy : TrustPolicy) : List String :=
  shared Witness.operator policy.witnesses

open TrustPolicy

theorem quorum_counts_fresh (policy : TrustPolicy) (times : Witness VerifierKey → Option Nat) (now : Nat) :
    policy.quorum (policy.cosigners times) now =
      if policy.distinctOperators then
        (groups Witness.operator (policy.witnesses.filter (policy.isFresh times now))).length
      else policy.witnesses.countP (policy.isFresh times now) := by
  have fresh : ((policy.cosigners times).filter fun c =>
      (c.time - now) + (now - c.time) ≤ policy.maxAgeSeconds).map Cosigner.operator =
      (policy.witnesses.filter (policy.isFresh times now)).map Witness.operator := by
    rw [cosigners]
    induction policy.witnesses with
    | nil => rfl
    | cons w witnesses ih =>
      cases signed : times w with
      | none => simpa [isFresh, signed] using ih
      | some time =>
        by_cases inTime : (time - now) + (now - time) ≤ policy.maxAgeSeconds
        · simpa [isFresh, signed, inTime] using ih
        · simpa [isFresh, signed, inTime] using ih
  rw [Policy.quorum, ← List.length_map (f := Cosigner.operator), fresh, List.length_map,
    List.countP_eq_length_filter]
  rfl

theorem addWitness_keeps_names {env : Signing Pair} {origin : String} {log : VerifierKey}
    {witnesses grown : List (Witness VerifierKey)} {w : WitnessWire}
    (unique : (witnesses.map Witness.name).Nodup)
    (added : addWitness env origin log witnesses w = .ok grown) : (grown.map Witness.name).Nodup := by
  unfold addWitness at added
  cases parsed : parse env w.vkey with
  | error reason => simp [parsed] at added
  | ok key =>
    simp only [parsed, guard_eq_ok, Except.ok.injEq] at added
    obtain ⟨-, -, -, unknown, -, -, rfl⟩ := added
    rw [List.map_append, List.map_singleton, ← List.concat_eq_append]
    exact unique.concat unknown

/-- What the loader has checked of the witnesses and of the threshold. -/
theorem fromJson_checked {env : Signing Pair} {readWire : List UInt8 → Except String PolicyWire}
    {bytes : List UInt8} (loaded : TrustPolicy.fromJson env readWire bytes = .ok policy) :
    policy.witnesses.Nodup ∧ (policy.distinctOperators = true →
      policy.threshold ≤ (operatorsOf policy.witnesses).length) := by
  obtain ⟨wire, -, loaded⟩ := bind_eq_ok.1 loaded
  simp only [TrustPolicy.fromWire, guard_eq_ok, bind_eq_ok, Except.ok.injEq] at loaded
  obtain ⟨-, origin, -, log, -, -, -, witnesses, added, -, -, below, -, onFailure, -, rfl⟩ := loaded
  have unique : (witnesses.map Witness.name).Nodup :=
    foldlM_post (fun _ found => (found.map Witness.name).Nodup)
      (fun _ _ _ _ _ unique => addWitness_keeps_names unique) List.nodup_nil added
  exact ⟨unique.of_map _, fun counted => Nat.le_of_not_lt fun exceeds => below ⟨counted, exceeds⟩⟩

theorem isFresh_of_signed (policy : TrustPolicy) (signs : Witness VerifierKey → Bool) :
    policy.isFresh (fun w => if signs w then some 0 else none) 0 = signs := by
  funext w
  cases signed : signs w <;> simp [isFresh, signed]

/-- Two quorums always share a witness if and only if witnesses are counted, or the votes of two
quorums are more than the operators can give when those with several witnesses vote twice. -/
theorem majority_quorums_share_a_witness {env : Signing Pair}
    {readWire : List UInt8 → Except String PolicyWire} {bytes : List UInt8} (policy : TrustPolicy)
    (loaded : TrustPolicy.fromJson env readWire bytes = .ok policy)
    (majority : policy.quorumIsMajority = true) :
    (∀ (times times' : Witness VerifierKey → Option Nat) (now now' : Nat),
      policy.threshold ≤ policy.quorum (policy.cosigners times) now →
      policy.threshold ≤ policy.quorum (policy.cosigners times') now' →
      ∃ w ∈ policy.witnesses, policy.isFresh times now w = true ∧ policy.isFresh times' now' w = true) ↔
    (policy.distinctOperators = true →
      (operatorsOf policy.witnesses).length + policy.sharedOperators.length < 2 * policy.threshold) := by
  simp only [quorum_counts_fresh]
  constructor
  · intro share counted
    by_contra few
    obtain ⟨unique, possible⟩ := fromJson_checked loaded
    obtain ⟨p, q, met, met', apart⟩ := exists_apart unique (possible counted) (Nat.le_of_not_lt few)
    obtain ⟨w, -, both⟩ := share (fun w => if p w then some 0 else none)
      (fun w => if q w then some 0 else none) 0 0 (by simpa [counted, isFresh_of_signed] using met)
      (by simpa [counted, isFresh_of_signed] using met')
    rw [isFresh_of_signed, isFresh_of_signed] at both
    exact apart w both
  · intro enough times times' now now' met met'
    cases counted : policy.distinctOperators with
    | false =>
      rw [TrustPolicy.quorumIsMajority, counted] at majority
      rw [counted] at met met'
      refine exists_common ?_
      simp at majority met met'
      omega
    | true =>
      have enough := enough counted
      rw [counted] at met met'
      refine exists_common_of_groups Witness.operator ?_
      rw [TrustPolicy.sharedOperators, operatorsOf] at enough
      simp only [if_true] at met met'
      omega

def sampleVkey (name : String) (kind : KeyKind) (seed : UInt8) : String :=
  if named : validKeyName name = true then
    text sampleSigning ⟨name, kind, Log.sumDigest [seed], named⟩
  else ""

/-- Two votes are needed, and an operator has one. -/
def sampleWire (witnesses : List (String × String × UInt8)) : PolicyWire where
  version := 1
  logOrigin := "log/dynodoc/v1/transparency"
  logVkey := sampleVkey "log/dynodoc/v1/transparency" .log 0
  witnesses := witnesses.map fun (name, operator, seed) =>
    ⟨name, sampleVkey name .cosigner seed, operator⟩
  threshold := 2
  distinctOperators := true
  maxAgeSeconds := 60
  onFailure := "warn"

def signedAt (names : List String) (time : Nat) (w : Witness VerifierKey) : Option Nat :=
  if w.name ∈ names then some time else none

/-- Three operators with one witness each. -/
theorem three_witnesses_share_one :
    let wire := sampleWire [("w1", "a", 1), ("w2", "b", 2), ("w3", "c", 3)]
    ∃ policy, TrustPolicy.fromJson sampleSigning (fun _ => .ok wire) [] = .ok policy ∧
    ∃ w ∈ policy.witnesses,
      policy.isFresh (signedAt ["w1", "w2"] 100) 90 w = true ∧
      policy.isFresh (signedAt ["w2", "w3"] 100) 150 w = true := by
  intro wire
  have facts : (TrustPolicy.fromJson sampleSigning (fun _ => .ok wire) []).toOption.any (fun policy =>
      policy.quorumIsMajority = true ∧
      (operatorsOf policy.witnesses).length + policy.sharedOperators.length < 2 * policy.threshold ∧
      policy.threshold ≤ policy.quorum (policy.cosigners (signedAt ["w1", "w2"] 100)) 90 ∧
      policy.threshold ≤ policy.quorum (policy.cosigners (signedAt ["w2", "w3"] 100)) 150) = true := by
    decide +kernel
  obtain ⟨policy, loaded, facts⟩ := (Option.any_eq_true _ _).1 facts
  obtain ⟨majority, apart, met, met'⟩ := of_decide_eq_true facts
  have loaded := toOption_eq_some.1 loaded
  exact ⟨policy, loaded, (majority_quorums_share_a_witness policy loaded majority).2 (fun _ => apart)
    _ _ _ _ met met'⟩

/-- Two operators with two witnesses each can send different ones. -/
theorem operators_send_different_witnesses :
    ¬ ∀ (env : Signing UInt8) (readWire : List UInt8 → Except String PolicyWire) (bytes : List UInt8)
        (policy : TrustPolicy), TrustPolicy.fromJson env readWire bytes = .ok policy →
      policy.quorumIsMajority = true →
      ∀ (times times' : Witness VerifierKey → Option Nat) (now now' : Nat),
        policy.threshold ≤ policy.quorum (policy.cosigners times) now →
        policy.threshold ≤ policy.quorum (policy.cosigners times') now' →
        ∃ w ∈ policy.witnesses, (times w).isSome = true ∧ (times' w).isSome = true := by
  intro claim
  let wire := sampleWire [("w1", "a", 1), ("w2", "a", 2), ("w3", "b", 3), ("w4", "b", 4)]
  have facts : (TrustPolicy.fromJson sampleSigning (fun _ => .ok wire) []).toOption.any (fun policy =>
      policy.quorumIsMajority = true ∧
      policy.threshold ≤ policy.quorum (policy.cosigners (signedAt ["w1", "w3"] 100)) 100 ∧
      policy.threshold ≤ policy.quorum (policy.cosigners (signedAt ["w2", "w4"] 100)) 100 ∧
      ∀ w ∈ policy.witnesses, ¬ ((signedAt ["w1", "w3"] 100 w).isSome = true ∧
        (signedAt ["w2", "w4"] 100 w).isSome = true)) = true := by
    decide +kernel
  obtain ⟨policy, loaded, facts⟩ := (Option.any_eq_true _ _).1 facts
  obtain ⟨majority, met, met', none⟩ := of_decide_eq_true facts
  obtain ⟨w, mem, both⟩ := claim sampleSigning _ _ policy (toOption_eq_some.1 loaded) majority
    _ _ _ _ met met'
  exact none w mem both

end Quorums

end Dynodoc.Transparency
