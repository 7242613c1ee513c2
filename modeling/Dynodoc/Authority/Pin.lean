import Dynodoc.Authority.Epoch
import Dynodoc.Lib.Links

/-! The pin of a client: the receipt it has accepted last and the key it trusts. -/
namespace Dynodoc.Authority
open Loop Links List

variable {path : List SignedTransition} {key : String}

def maxProofReceipts : Nat := 256
def maxChainPage : Nat := 64

def checkedSucc (generation : Int) : Option Int :=
  if generation = i64Max then none else some (generation + 1)

structure Pin (Address : Type) where
  trustedKey : String
  current : SignedReceipt Address
  revoked : Bool
  deriving DecidableEq

variable {Address : Type} {env : Externals Address}

variable {pin later : Pin Address} {proof : List (SignedReceipt Address)}
  {receipt : SignedReceipt Address} {chain : Chain env}

namespace Pin

variable [DecidableEq Address] (env : Externals Address) (pin : Pin Address)

def trustCheckpoint (scope : Scope) (trustedKey : String) (receipt : SignedReceipt Address) :
    Except Error (Pin Address) :=
  if receipt.receipt.scope ≠ scope ∨ receipt.receipt.issuerKey ≠ trustedKey then
    .error (.invalid "untrusted receipt scope/key")
  else do
    let _ ← receipt.verify env
    .ok ⟨trustedKey, receipt, false⟩

def validate : Except Error Unit :=
  if pin.current.receipt.issuerKey ≠ pin.trustedKey then .error (.invalid "stored receipt authority")
  else do
    let _ ← pin.current.verify env
    .ok ()

def scope : Scope := pin.current.receipt.scope

def generation : Int := pin.current.receipt.head.generation

def revoke : Pin Address := { pin with revoked := true }

def next (receipt : SignedReceipt Address) (key : String) : Except Error (Pin Address) := do
  let prior ← pin.current.verify env
  let _ ← receipt.verify env
  if receipt.receipt.scope ≠ pin.scope ∨ receipt.receipt.issuerKey ≠ key ∨
      receipt.receipt.previous ≠ some prior ∨
      some receipt.receipt.head.generation ≠ checkedSucc pin.generation then
    .error (.invalid "receipt rollback, fork or missing proof")
  else .ok ⟨key, receipt, false⟩

/-- A receipt of a proof repeats the one before it or extends it. -/
def checkContiguous (previous : Option (SignedReceipt Address)) (receipt : SignedReceipt Address) :
    Except Error Unit :=
  match previous with
  | none => .ok ()
  | some previous =>
    if receipt = previous then .ok ()
    else do
      let address ← previous.verify env
      if receipt.receipt.previous ≠ some address ∨
          some receipt.receipt.head.generation ≠ checkedSucc previous.receipt.head.generation then
        .error (.invalid "noncontiguous receipt proof")
      else .ok ()

/-- The receipts of a proof, all under one key if that is asked for. -/
def checkProof (scope : Scope) (key : Option String) :
    Option (SignedReceipt Address) → List (SignedReceipt Address) → Except Error Unit
  | _, [] => .ok ()
  | previous, receipt :: rest => do
    let _ ← receipt.verify env
    if receipt.receipt.scope ≠ scope ∨ key.any (receipt.receipt.issuerKey ≠ ·) then
      .error (.invalid "untrusted receipt scope/key")
    else do
      checkContiguous env previous receipt
      checkProof scope key (some receipt) rest

def startOf (proof : List (SignedReceipt Address)) : Except Error Nat :=
  if proof.head?.any fun r => r.receipt.head.generation ≤ pin.generation then
    match proof.findIdx? (· = pin.current) with
    | some start => .ok start
    | none => .error (.invalid "receipt rollback or fork")
  else .ok 0

def advanceBy (pin : Pin Address) (receipt : SignedReceipt Address) : Except Error (Pin Address) :=
  if receipt = pin.current then .ok pin else pin.next env receipt pin.trustedKey

def advance (proof : List (SignedReceipt Address)) : Except Error (Pin Address) := do
  pin.validate env
  if pin.revoked then .error (.invalid "receipt authority revoked")
  else if proof.length > maxProofReceipts then .error (.limit "receipt proof")
  else do
    checkProof env pin.scope (some pin.trustedKey) none proof
    let start ← pin.startOf proof
    (proof.drop start).foldlM (advanceBy env) pin

def rotate (transition : SignedRotation Address) (receipt : SignedReceipt Address) :
    Except Error (Pin Address) := do
  pin.validate env
  if pin.revoked then .error (.invalid "receipt authority revoked")
  else do
    let address ← transition.rotation.address env
    env.verify transition.rotation.oldKey transition.oldSignature (env.message rotationSignDomain address)
    env.verify transition.rotation.newKey transition.newSignature (env.message rotationSignDomain address)
    let prior ← pin.current.verify env
    if transition.rotation.scope ≠ pin.scope ∨ transition.rotation.oldKey ≠ pin.trustedKey ∨
        transition.rotation.previous ≠ prior ∨
        some transition.rotation.nextGeneration ≠ checkedSucc pin.generation then
      .error (.invalid "authority rotation scope/position")
    else pin.next env receipt transition.rotation.newKey

/-- The key that a path of rotations leads to. -/
def followPath (authority : Log.Uuid) : String → Option Nat → List SignedTransition → Except Error String
  | key, _, [] => .ok key
  | key, epoch, s :: rest => do
    let _ ← s.verify env
    if s.transition.kind ≠ .rotation then .error (.invalid "authority chain break needs explicit re-pin")
    else if s.transition.authority ≠ authority ∨ s.transition.oldKey ≠ key ∨
        epoch.any (· ≠ s.transition.fromEpoch) then
      .error (.invalid "authority rotation scope/position")
    else followPath authority s.transition.newKey (some s.transition.toEpoch) rest

def rotateAuthority (path : List SignedTransition) (receipt : SignedReceipt Address) :
    Except Error (Pin Address) := do
  pin.validate env
  if pin.revoked then .error (.invalid "receipt authority revoked")
  else if path = [] ∨ path.length > maxChainPage then .error (.limit "authority rotation path")
  else do
    let key ← followPath env pin.scope.authority pin.trustedKey none path
    pin.next env receipt key

def acceptBreak (statement : SignedTransition) (trustedNewKey : String)
    (receipt : SignedReceipt Address) : Except Error (Pin Address) := do
  pin.validate env
  let _ ← statement.verify env
  if statement.transition.kind ≠ .recovery ∨ statement.transition.authority ≠ pin.scope.authority ∨
      statement.transition.oldKey ≠ pin.trustedKey ∨ statement.transition.newKey ≠ trustedNewKey then
    .error (.invalid "authority recovery scope/position")
  else pin.next env receipt trustedNewKey

def pathError : PathError → Error
  | .broken .. => .invalid "authority chain break needs explicit re-pin"
  | .unknownKey => .invalid "receipt key is not on the authority chain"
  | .backwards => .invalid "receipt key precedes the trusted key"

variable {env} in
def advanceAlong (chain : Chain env) (state : Pin Address × List SignedTransition)
    (receipt : SignedReceipt Address) : Except Error (Pin Address × List SignedTransition) :=
  if receipt = state.1.current then .ok state
  else if receipt.receipt.issuerKey = state.1.trustedKey then do
    let pin ← state.1.next env receipt state.1.trustedKey
    .ok (pin, state.2)
  else
    match chain.path state.1.trustedKey receipt.receipt.issuerKey with
    | .error e => .error (pathError e)
    | .ok path => do
      let pin ← state.1.rotateAuthority env path receipt
      .ok (pin, state.2 ++ path)

variable {env} in
/-- Like `advance`, across changes of key; also the statements that it used. -/
def advanceChain (chain : Chain env) (proof : List (SignedReceipt Address)) :
    Except Error (Pin Address × List SignedTransition) := do
  pin.validate env
  if pin.revoked then .error (.invalid "receipt authority revoked")
  else if proof.length > maxProofReceipts then .error (.limit "receipt proof")
  else if chain.authority ≠ pin.scope.authority then .error (.invalid "authority chain identity")
  else do
    checkProof env pin.scope none none proof
    let start ← pin.startOf proof
    (proof.drop start).foldlM (advanceAlong chain) (pin, [])

end Pin

/-- What may be done to a pin, with whatever arguments. -/
inductive Call (env : Externals Address) where
  | advance (proof : List (SignedReceipt Address))
  | advanceChain (chain : Chain env) (proof : List (SignedReceipt Address))
  | rotate (transition : SignedRotation Address) (receipt : SignedReceipt Address)
  | rotateAuthority (path : List SignedTransition) (receipt : SignedReceipt Address)
  | acceptBreak (statement : SignedTransition) (trustedNewKey : String) (receipt : SignedReceipt Address)
  | revoke

variable {call : Call env}

def Pin.apply [DecidableEq Address] (pin : Pin Address) : Call env → Except Error (Pin Address)
  | .advance proof => pin.advance env proof
  | .advanceChain chain proof => Prod.fst <$> pin.advanceChain chain proof
  | .rotate transition receipt => pin.rotate env transition receipt
  | .rotateAuthority path receipt => pin.rotateAuthority env path receipt
  | .acceptBreak statement key receipt => pin.acceptBreak env statement key receipt
  | .revoke => .ok pin.revoke

/-- A call that fails leaves the pin as it was. -/
def Pin.run [DecidableEq Address] (pin : Pin Address) (calls : List (Call env)) : Pin Address :=
  calls.foldl (fun pin call => (pin.apply call).toOption.getD pin) pin

def Names (env : Externals Address) (old new : Receipt Address) : Prop :=
  ∃ address, old.address env = .ok address ∧ new.previous = some address

/-- A pin has moved on by so many receipts. -/
structure Extends (env : Externals Address) (n : Nat) (pin later : Pin Address) : Prop where
  scope : later.scope = pin.scope
  generation : later.generation = pin.generation + n
  linked : Linked (Names env) n pin.current.receipt later.current.receipt

theorem Extends.refl (pin : Pin Address) : Extends env 0 pin pin :=
  ⟨rfl, by simp, .refl _⟩

variable {last : Pin Address}

theorem Extends.trans {n m : Nat} (first : Extends env n pin later)
    (second : Extends env m later last) : Extends env (n + m) pin last := by
  refine ⟨second.scope.trans first.scope, ?_, first.linked.trans second.linked⟩
  rw [second.generation, first.generation]
  omega

/-- A change of key that both keys signed for the authority of a branch. -/
def HandsOver (env : Externals Address) (scope : Scope) (old new : String) : Prop :=
  (∃ s : SignedTransition, s.transition.kind = .rotation ∧ s.transition.authority = scope.authority ∧
    s.transition.oldKey = old ∧ s.transition.newKey = new ∧ s.SignedByBoth env) ∨
  ∃ s : SignedRotation Address, s.rotation.scope = scope ∧ s.rotation.oldKey = old ∧
    s.rotation.newKey = new ∧ s.SignedByBoth env

/-- An unbroken series of changes of key. -/
def Backed (env : Externals Address) (scope : Scope) : String → String → Prop :=
  Relation.ReflTransGen (HandsOver env scope)

/-- How a call moves a pin: by receipts, to a key that the old one leads to. -/
structure Carried (env : Externals Address) (pin later : Pin Address) : Prop where
  moves : ∃ n, Extends env n pin later
  issuer : later.current.receipt.issuerKey = later.trustedKey
  backed : Backed env pin.scope pin.trustedKey later.trustedKey

theorem Carried.scope (carried : Carried env pin later) : later.scope = pin.scope := by
  obtain ⟨n, moves⟩ := carried.moves
  exact moves.scope

theorem Carried.refl (issuer : pin.current.receipt.issuerKey = pin.trustedKey) : Carried env pin pin :=
  ⟨⟨0, .refl pin⟩, issuer, .refl⟩

theorem Carried.trans (first : Carried env pin later)
    (second : Carried env later last) : Carried env pin last := by
  obtain ⟨n, moves⟩ := first.moves
  obtain ⟨m, goesOn⟩ := second.moves
  have backed := second.backed
  rw [first.scope] at backed
  exact ⟨⟨n + m, moves.trans goesOn⟩, second.issuer, first.backed.trans backed⟩

theorem SignedReceipt.address_of_verify {signed : SignedReceipt Address} {address : Address}
    (verified : signed.verify env = .ok address) : signed.receipt.address env = .ok address := by
  obtain ⟨found, addressed, verified⟩ := bind_eq_ok.1 verified
  obtain ⟨⟨⟩, -, same⟩ := bind_eq_ok.1 verified
  cases same
  exact addressed

theorem succ_of_checked {generation after : Int} (checked : some after = checkedSucc generation) :
    after = generation + 1 := by
  unfold checkedSucc at checked
  split at checked
  · contradiction
  · exact Option.some.inj checked

theorem issuer_of_validate (valid : pin.validate env = .ok ()) :
    pin.current.receipt.issuerKey = pin.trustedKey := by
  obtain ⟨same, valid⟩ := guard_eq_ok.1 valid
  exact not_not.1 same

open Pin

theorem followPath_backed {scope : Scope} {last : String}
    {epoch : Option Nat} (followed : followPath env scope.authority key epoch path = .ok last) :
    Backed env scope key last := by
  induction path generalizing key epoch with
  | nil =>
    cases followed
    exact .refl
  | cons s rest ih =>
    obtain ⟨address, verified, followed⟩ := bind_eq_ok.1 followed
    obtain ⟨rotation, followed⟩ := guard_eq_ok.1 followed
    obtain ⟨fits, followed⟩ := guard_eq_ok.1 followed
    simp only [not_or, not_not] at fits
    refine .head (.inl ⟨s, not_not.1 rotation, fits.1, fits.2.1, rfl, ?_⟩) (ih followed)
    exact SignedTransition.signedByBoth verified (not_not.1 rotation)

def IsBreak (call : Call env) (later : Pin Address) : Prop :=
  ∃ statement key receipt, call = .acceptBreak statement key receipt ∧ later.trustedKey = key

/-- What a call that succeeds may do to a pin. -/
structure Moved (env : Externals Address) (pin : Pin Address) (call : Call env) (later : Pin Address) :
    Prop where
  moves : ∃ n, Extends env n pin later
  issuer : later.current.receipt.issuerKey = later.trustedKey
  keyed : IsBreak call later ∨ Backed env pin.scope pin.trustedKey later.trustedKey
  held : pin.revoked → IsBreak call later ∨ later = pin

theorem Carried.moved (accepted : pin.revoked = false ∧ Carried env pin later) :
    Moved env pin call later :=
  ⟨accepted.2.moves, accepted.2.issuer, .inr accepted.2.backed, by simp [accepted.1]⟩

section Steps

variable [DecidableEq Address]

theorem next_eq_ok (accepted : pin.next env receipt key = .ok later) :
    later = ⟨key, receipt, false⟩ ∧ receipt.receipt.issuerKey = key ∧ Extends env 1 pin later := by
  obtain ⟨prior, current, accepted⟩ := bind_eq_ok.1 accepted
  obtain ⟨address, -, accepted⟩ := bind_eq_ok.1 accepted
  obtain ⟨fits, accepted⟩ := guard_eq_ok.1 accepted
  simp only [not_or, not_not] at fits
  obtain ⟨scope, issuer, previous, generation⟩ := fits
  cases accepted
  refine ⟨rfl, issuer, scope, succ_of_checked generation, .single ⟨prior, ?_, previous⟩⟩
  exact SignedReceipt.address_of_verify current

theorem carried_of_next
    (accepted : pin.next env receipt key = .ok later) (backed : Backed env pin.scope pin.trustedKey key) :
    Carried env pin later := by
  obtain ⟨rfl, issuer, moves⟩ := next_eq_ok accepted
  exact ⟨⟨1, moves⟩, issuer, backed⟩

theorem advance_carried
    (accepted : pin.advance env proof = .ok later) : pin.revoked = false ∧ Carried env pin later := by
  obtain ⟨⟨⟩, valid, accepted⟩ := bind_eq_ok.1 accepted
  obtain ⟨live, accepted⟩ := guard_eq_ok.1 accepted
  obtain ⟨-, accepted⟩ := guard_eq_ok.1 accepted
  obtain ⟨⟨⟩, -, accepted⟩ := bind_eq_ok.1 accepted
  obtain ⟨start, -, accepted⟩ := bind_eq_ok.1 accepted
  refine ⟨by simpa using live, foldlM_post (fun _ => Carried env pin) ?_
    (Carried.refl (issuer_of_validate valid)) accepted⟩
  intro _ receipt before after _ carried step
  unfold advanceBy at step
  split at step
  · cases step
    exact carried
  · exact carried.trans (carried_of_next step .refl)

theorem rotate_carried {transition : SignedRotation Address}
    (accepted : pin.rotate env transition receipt = .ok later) :
    pin.revoked = false ∧ Carried env pin later := by
  obtain ⟨⟨⟩, valid, accepted⟩ := bind_eq_ok.1 accepted
  obtain ⟨live, accepted⟩ := guard_eq_ok.1 accepted
  obtain ⟨address, addressed, accepted⟩ := bind_eq_ok.1 accepted
  obtain ⟨⟨⟩, old, accepted⟩ := bind_eq_ok.1 accepted
  obtain ⟨⟨⟩, new, accepted⟩ := bind_eq_ok.1 accepted
  obtain ⟨prior, -, accepted⟩ := bind_eq_ok.1 accepted
  obtain ⟨fits, accepted⟩ := guard_eq_ok.1 accepted
  simp only [not_or, not_not] at fits
  have handsOver : HandsOver env pin.scope pin.trustedKey transition.rotation.newKey :=
    .inr ⟨transition, fits.1, fits.2.1, rfl, address, addressed, old, new⟩
  exact ⟨by simpa using live, carried_of_next accepted (.single handsOver)⟩

theorem rotateAuthority_carried (accepted : pin.rotateAuthority env path receipt = .ok later) :
    pin.revoked = false ∧ Carried env pin later := by
  obtain ⟨⟨⟩, valid, accepted⟩ := bind_eq_ok.1 accepted
  obtain ⟨live, accepted⟩ := guard_eq_ok.1 accepted
  obtain ⟨-, accepted⟩ := guard_eq_ok.1 accepted
  obtain ⟨key, followed, accepted⟩ := bind_eq_ok.1 accepted
  exact ⟨by simpa using live, carried_of_next accepted (followPath_backed followed)⟩

theorem advanceAlong_carried
    {state after : Pin Address × List SignedTransition} (carried : Carried env pin state.1)
    (accepted : advanceAlong chain state receipt = .ok after) : Carried env pin after.1 := by
  unfold advanceAlong at accepted
  split at accepted
  · cases accepted
    exact carried
  · split at accepted
    · obtain ⟨moved, step, accepted⟩ := bind_eq_ok.1 accepted
      cases accepted
      exact carried.trans (carried_of_next step .refl)
    · split at accepted
      · contradiction
      obtain ⟨moved, step, accepted⟩ := bind_eq_ok.1 accepted
      cases accepted
      exact carried.trans (rotateAuthority_carried step).2

theorem advanceChain_carried
    {used : List SignedTransition} (accepted : pin.advanceChain chain proof = .ok (later, used)) :
    pin.revoked = false ∧ Carried env pin later := by
  obtain ⟨⟨⟩, valid, accepted⟩ := bind_eq_ok.1 accepted
  obtain ⟨live, accepted⟩ := guard_eq_ok.1 accepted
  obtain ⟨-, accepted⟩ := guard_eq_ok.1 accepted
  split at accepted
  · contradiction
  obtain ⟨⟨⟩, -, accepted⟩ := bind_eq_ok.1 accepted
  obtain ⟨start, -, accepted⟩ := bind_eq_ok.1 accepted
  refine ⟨by simpa using live, foldlM_post (fun _ state => Carried env pin state.1) ?_
    (Carried.refl (issuer_of_validate valid)) accepted⟩
  intro _ receipt before after _ carried step
  exact advanceAlong_carried carried step

theorem acceptBreak_eq_ok {statement : SignedTransition}
    (accepted : pin.acceptBreak env statement key receipt = .ok later) :
    later = ⟨key, receipt, false⟩ ∧ receipt.receipt.issuerKey = key ∧ Extends env 1 pin later := by
  obtain ⟨⟨⟩, valid, accepted⟩ := bind_eq_ok.1 accepted
  obtain ⟨address, verified, accepted⟩ := bind_eq_ok.1 accepted
  obtain ⟨-, accepted⟩ := guard_eq_ok.1 accepted
  exact next_eq_ok accepted

theorem moved_of_apply (issuer : pin.current.receipt.issuerKey = pin.trustedKey)
    (accepted : pin.apply call = .ok later) : Moved env pin call later := by
  cases call with
  | advance proof => exact Carried.moved (advance_carried accepted)
  | advanceChain chain proof =>
    obtain ⟨⟨moved, used⟩, advanced, rfl⟩ := map_eq_ok.1 accepted
    exact Carried.moved (advanceChain_carried advanced)
  | rotate transition receipt => exact Carried.moved (rotate_carried accepted)
  | rotateAuthority path receipt => exact Carried.moved (rotateAuthority_carried accepted)
  | acceptBreak statement key receipt =>
    obtain ⟨rfl, issued, moves⟩ := acceptBreak_eq_ok accepted
    have isBreak : IsBreak (.acceptBreak statement key receipt : Call env) ⟨key, receipt, false⟩ :=
      ⟨statement, key, receipt, rfl, rfl⟩
    exact ⟨⟨1, moves⟩, issued, .inl isBreak, fun _ => .inl isBreak⟩
  | revoke =>
    cases accepted
    refine ⟨⟨0, rfl, by simp [generation, revoke], .refl _⟩, issuer, .inr .refl, fun revoked => .inr ?_⟩
    rw [revoke, ← revoked]

/-- A run moves a pin on by receipts, whatever the calls. -/
theorem extends_of_run (calls : List (Call env))
    (issuer : pin.current.receipt.issuerKey = pin.trustedKey) :
    (∃ n, Extends env n pin (pin.run calls)) ∧
      (pin.run calls).current.receipt.issuerKey = (pin.run calls).trustedKey := by
  induction calls generalizing pin with
  | nil => exact ⟨⟨0, .refl pin⟩, issuer⟩
  | cons call rest ih =>
    change (∃ n, Extends env n pin (((pin.apply call).toOption.getD pin).run rest)) ∧
      (((pin.apply call).toOption.getD pin).run rest).current.receipt.issuerKey =
        (((pin.apply call).toOption.getD pin).run rest).trustedKey
    cases applied : pin.apply call with
    | error e => exact ih issuer
    | ok later =>
      have moved := moved_of_apply issuer applied
      obtain ⟨n, moves⟩ := moved.moves
      obtain ⟨⟨m, goesOn⟩, issued⟩ := ih moved.issuer
      exact ⟨⟨n + m, moves.trans goesOn⟩, issued⟩

end Steps

/-- A receipt comes before another, each step with its address and the next generation. -/
def InHistory (env : Externals Address) : Receipt Address → Receipt Address → Prop :=
  Relation.ReflTransGen fun old new => Names env old new ∧ new.head.generation = old.head.generation + 1

/-- A later pin has the receipt of an earlier one in its history, and no other of its generation. -/
structure Forward (env : Externals Address) (pin later : Pin Address) : Prop where
  scope : later.scope = pin.scope
  generation : pin.generation ≤ later.generation
  linked : Linked (Names env) (later.generation - pin.generation).toNat pin.current.receipt
    later.current.receipt
  alone : ∀ other, Linked (Names env) (later.generation - pin.generation).toNat other
    later.current.receipt → other = pin.current.receipt
  only : ∀ other, InHistory env other later.current.receipt →
    other.head.generation = pin.generation → other = pin.current.receipt

theorem names_leftUnique (collisionFree : Function.Injective env.sha256)
    (canonical : Function.Injective env.receiptJson) : Relator.LeftUnique (Names env) := by
  have hashed {receipt : Receipt Address} {address : Address}
      (addressed : receipt.address env = .ok address) :
      env.sha256 (Log.utf8 receiptDomain ++ env.receiptJson receipt) = address := by
    obtain ⟨⟨⟩, -, addressed⟩ := bind_eq_ok.1 addressed
    obtain ⟨-, addressed⟩ := guard_eq_ok.1 addressed
    obtain ⟨_, -, addressed⟩ := bind_eq_ok.1 addressed
    obtain ⟨-, addressed⟩ := guard_eq_ok.1 addressed
    exact Except.ok.inj addressed
  rintro old other new ⟨address, first, previous⟩ ⟨address', second, previous'⟩
  cases previous.symm.trans previous'
  have same := collisionFree ((hashed first).trans (hashed second).symm)
  exact canonical (append_cancel_left same)

theorem forward_of_extends {n : Nat}
    (collisionFree : Function.Injective env.sha256) (canonical : Function.Injective env.receiptJson)
    (moves : Extends env n pin later) : Forward env pin later := by
  have unique := names_leftUnique collisionFree canonical
  have count : (later.generation - pin.generation).toNat = n := by
    rw [moves.generation]
    omega
  refine ⟨moves.scope, by rw [moves.generation]; omega, count ▸ moves.linked, ?_, ?_⟩
  · intro other links
    rw [count] at links
    exact links.unique unique moves.linked
  · intro other before generation
    obtain ⟨m, links, height⟩ :=
      linked_of_heights (fun r : Receipt Address => r.head.generation) (fun _ _ link => link.2) before
    have same : m = n := by
      have := moves.generation
      simp only [Pin.generation] at this generation
      omega
    subst same
    exact (links.mono fun _ _ link => link.1).unique unique moves.linked

theorem trustCheckpoint_eq_ok [DecidableEq Address] {scope : Scope}
    (created : trustCheckpoint env scope key receipt = .ok pin) :
    pin.scope = scope ∧ pin.current.receipt.issuerKey = pin.trustedKey := by
  obtain ⟨fits, created⟩ := guard_eq_ok.1 created
  simp only [not_or, not_not] at fits
  obtain ⟨_, -, created⟩ := bind_eq_ok.1 created
  cases created
  exact fits

/-- From a trusted checkpoint a pin only moves forward along one signed chain of receipts, its key
changes only by statements of both keys or by a break, and a revoked pin only by a break. -/
theorem pin_moves_along_one_chain [DecidableEq Address] (env : Externals Address)
    (collisionFree : Function.Injective env.sha256) (canonical : Function.Injective env.receiptJson)
    {scope : Scope} {key : String} {receipt : SignedReceipt Address} {start : Pin Address}
    (created : Pin.trustCheckpoint env scope key receipt = .ok start) (calls more : List (Call env))
    {pin later : Pin Address} (here : start.run calls = pin) (there : pin.run more = later) :
    pin.scope = scope ∧ pin.current.receipt.issuerKey = pin.trustedKey ∧ Forward env pin later ∧
      ∀ (call : Call env) (moved : Pin Address), pin.apply call = .ok moved →
        (moved.trustedKey ≠ pin.trustedKey →
          IsBreak call moved ∨ Backed env scope pin.trustedKey moved.trustedKey) ∧
        (pin.revoked → moved ≠ pin → IsBreak call moved) := by
  obtain ⟨bound, issued⟩ := trustCheckpoint_eq_ok created
  obtain ⟨⟨n, moves⟩, issuer⟩ := extends_of_run calls issued
  rw [here] at moves issuer
  obtain ⟨⟨m, goesOn⟩, -⟩ := extends_of_run more issuer
  rw [there] at goesOn
  have scope' := moves.scope.trans bound
  refine ⟨scope', issuer, forward_of_extends collisionFree canonical goesOn, fun call moved accepted => ?_⟩
  have step := moved_of_apply issuer accepted
  rw [← scope']
  exact ⟨fun _ => step.keyed, fun revoked changed => (step.held revoked).resolve_right changed⟩

/-- Bytes with a mark before each and an end. -/
def frame : List UInt8 → List UInt8
  | [] => [0]
  | b :: rest => 1 :: b :: frame rest

theorem frame_append_inj {a b x y : List UInt8} (same : frame a ++ x = frame b ++ y) : a = b ∧ x = y := by
  induction a generalizing b with
  | nil =>
    cases b with
    | nil => exact ⟨rfl, cons.inj same |>.2⟩
    | cons _ _ => exact absurd (cons.inj same).1 (by decide)
  | cons byte rest ih =>
    cases b with
    | nil => exact absurd (cons.inj same).1 (by decide)
    | cons byte' rest' =>
      obtain ⟨bytes, tails⟩ := cons.inj (cons.inj same).2
      obtain ⟨rests, after⟩ := ih tails
      exact ⟨by rw [bytes, rests], after⟩

theorem frames_inj {a b : List (List UInt8)} (same : a.flatMap frame = b.flatMap frame) : a = b := by
  have ne (bytes rest : List UInt8) : frame bytes ++ rest ≠ [] := by
    cases bytes <;> simp [frame]
  induction a generalizing b with
  | nil =>
    cases b with
    | nil => rfl
    | cons _ _ => exact absurd same.symm (ne _ _)
  | cons first rest ih =>
    cases b with
    | nil => exact absurd same (ne _ _)
    | cons _ _ =>
      obtain ⟨firsts, rests⟩ := frame_append_inj same
      rw [firsts, ih rests]

def intBytes : Int → List UInt8
  | .ofNat n => 0 :: replicate n 0
  | .negSucc n => 1 :: replicate n 0

theorem intBytes_injective : Function.Injective intBytes := by
  intro a b same
  cases a <;> cases b <;> simp_all [intBytes]

def optionBytes : Option (List UInt8) → List UInt8
  | none => []
  | some bytes => 0 :: bytes

theorem optionBytes_injective : Function.Injective optionBytes := by
  intro a b same
  cases a <;> cases b <;> simp_all [optionBytes]

def sampleJson (r : Receipt (List UInt8)) : List UInt8 :=
  [replicate r.version 0, r.scope.authority.1, r.scope.project.1, Log.utf8 r.scope.branch,
    r.head.commit, intBytes r.head.generation, optionBytes r.previous, intBytes r.issuedAtMs,
    Log.utf8 r.issuerKey].flatMap frame

theorem sampleJson_injective : Function.Injective sampleJson := by
  rintro ⟨version, ⟨authority, project, branch⟩, ⟨commit, generation⟩, previous, issued, key⟩
    ⟨version', ⟨authority', project', branch'⟩, ⟨commit', generation'⟩, previous', issued', key'⟩ same
  have fields := frames_inj same
  simp only [cons.injEq, and_true, replicate_inj, Subtype.val_inj] at fields
  obtain ⟨versions, rfl, rfl, branches, rfl, generations, previouses, issueds, keys⟩ := fields
  cases versions.1
  cases Log.utf8_injective branches
  cases intBytes_injective generations
  cases optionBytes_injective previouses
  cases intBytes_injective issueds
  cases Log.utf8_injective keys
  rfl

/-- Addresses are what is hashed, and every signature holds. -/
def sampleExternals : Externals (List UInt8) where
  receiptJson := sampleJson
  transitionJson _ := []
  rotationJson _ := []
  signedJson _ := []
  sha256 bytes := bytes
  addressBytes bytes := bytes
  ed25519 _ _ _ := true

def sampleScope : Scope :=
  ⟨⟨replicate 16 1, rfl⟩, ⟨replicate 16 2, rfl⟩, "main"⟩

def sampleKey (c : Char) : String := String.ofList (replicate 64 c)

def sampleReceipt (generation : Int) (previous : Option (List UInt8)) (key : Char) :
    SignedReceipt (List UInt8) :=
  ⟨⟨1, sampleScope, ⟨[], generation⟩, previous, 0, sampleKey key⟩, String.ofList (replicate 128 'a')⟩

def firstReceipt : SignedReceipt (List UInt8) := sampleReceipt 1 none 'a'

def secondReceipt : SignedReceipt (List UInt8) :=
  sampleReceipt 2 (firstReceipt.verify sampleExternals).toOption 'a'

def thirdReceipt : SignedReceipt (List UInt8) :=
  sampleReceipt 3 (secondReceipt.verify sampleExternals).toOption 'b'

def samplePath : List SignedTransition :=
  [⟨⟨1, .rotation, sampleScope.authority, 1, 2, sampleKey 'a', sampleKey 'b', ⟨0, sampleKey '0'⟩, "", 0⟩,
    some (String.ofList (replicate 128 'a')), String.ofList (replicate 128 'a')⟩]

/-- A pin moves on by a proof that starts at it, and then to the key that its own hands over to. -/
theorem sample_pin_moves_to_second_key :
    ∃ start : Pin (List UInt8), Pin.trustCheckpoint sampleExternals sampleScope (sampleKey 'a')
        firstReceipt = .ok start ∧
      ((start.run ([.advance [firstReceipt, secondReceipt]] : List (Call sampleExternals))).run
        ([.rotateAuthority samplePath thirdReceipt] : List (Call sampleExternals))) =
          ⟨sampleKey 'b', thirdReceipt, false⟩ ∧
      Forward sampleExternals
        (start.run ([.advance [firstReceipt, secondReceipt]] : List (Call sampleExternals)))
        ⟨sampleKey 'b', thirdReceipt, false⟩ := by
  have created : Pin.trustCheckpoint sampleExternals sampleScope (sampleKey 'a') firstReceipt =
      .ok ⟨sampleKey 'a', firstReceipt, false⟩ := by decide +kernel
  have moves : (((⟨sampleKey 'a', firstReceipt, false⟩ : Pin (List UInt8)).run
      ([.advance [firstReceipt, secondReceipt]] : List (Call sampleExternals))).run
        ([.rotateAuthority samplePath thirdReceipt] : List (Call sampleExternals))) =
          ⟨sampleKey 'b', thirdReceipt, false⟩ := by decide +kernel
  exact ⟨_, created, moves, (pin_moves_along_one_chain sampleExternals Function.injective_id
    sampleJson_injective created [.advance [firstReceipt, secondReceipt]]
    [.rotateAuthority samplePath thirdReceipt] rfl moves).2.2.1⟩

end Dynodoc.Authority
