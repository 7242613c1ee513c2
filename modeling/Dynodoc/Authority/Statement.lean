import Dynodoc.Horizon.Record
import Dynodoc.Lib.Text

/-! What a receipt authority signs: receipts, and statements about its own keys. SHA-256,
Ed25519 and the JSON texts are parameters; addresses are of any type, so that hashing may be
taken to be injective. -/
namespace Dynodoc.Authority
open Log (Uuid utf8)
open Horizon (validBranch)
open Loop Text

variable {Address : Type}

inductive Error where
  | invalid (what : String)
  | limit (what : String)
  deriving DecidableEq

def i64Max : Int := 2 ^ 63 - 1

def isNil (id : Uuid) : Bool := id.1.all (· = 0)

def maxReceiptBytes : Nat := 4096
def maxStatementBytes : Nat := 4096
def maxReasonBytes : Nat := 200
def maxEpoch : Nat := 1024

structure Scope where
  authority : Uuid
  project : Uuid
  branch : String
  deriving DecidableEq

structure Head (Address : Type) where
  commit : Address
  generation : Int
  deriving DecidableEq

structure Receipt (Address : Type) where
  version : Nat
  scope : Scope
  head : Head Address
  previous : Option Address
  issuedAtMs : Int
  issuerKey : String
  deriving DecidableEq

structure SignedReceipt (Address : Type) where
  receipt : Receipt Address
  signature : String
  deriving DecidableEq

inductive Kind where
  | rotation
  | recovery
  deriving DecidableEq

structure Seal where
  receipts : Nat
  digest : String
  deriving DecidableEq

structure Transition where
  version : Nat
  kind : Kind
  authority : Uuid
  fromEpoch : Nat
  toEpoch : Nat
  oldKey : String
  newKey : String
  sealed : Seal
  reason : String
  declaredAtMs : Int
  deriving DecidableEq

structure SignedTransition where
  transition : Transition
  oldSignature : Option String
  newSignature : String
  deriving DecidableEq

variable {s : SignedTransition}

/-- A change of key at one receipt of one branch. -/
structure Rotation (Address : Type) where
  version : Nat
  scope : Scope
  previous : Address
  nextGeneration : Int
  oldKey : String
  newKey : String

structure SignedRotation (Address : Type) where
  rotation : Rotation Address
  oldSignature : String
  newSignature : String

/-- The canonical JSON of what is hashed, the JSON of a signed statement, SHA-256 and Ed25519. -/
structure Externals (Address : Type) where
  receiptJson : Receipt Address → List UInt8
  transitionJson : Transition → List UInt8
  rotationJson : Rotation Address → List UInt8
  signedJson : SignedTransition → List UInt8
  sha256 : List UInt8 → Address
  addressBytes : Address → List UInt8
  ed25519 : (key message signature : List UInt8) → Bool

def isHexDigit (b : UInt8) : Bool := (48 ≤ b && b ≤ 57) || (97 ≤ b && b ≤ 102)

def hexValue (b : UInt8) : Nat := if b ≤ 57 then b.toNat - 48 else b.toNat - 97 + 10

def hexPairs : List UInt8 → List UInt8
  | high :: low :: rest => UInt8.ofNat (hexValue high * 16 + hexValue low) :: hexPairs rest
  | _ => []

def unhex (value : String) (size : Nat) : Except Error (List UInt8) :=
  let bytes := utf8 value
  if bytes.length ≠ size * 2 ∨ ¬ bytes.all isHexDigit then .error (.invalid "hex encoding")
  else .ok (hexPairs bytes)

section Signatures

variable (env : Externals Address)

def Externals.hash (domain : String) (json : List UInt8) : Except Error Address :=
  if json.length > maxReceiptBytes then .error (.limit "receipt bytes")
  else .ok (env.sha256 (utf8 domain ++ json))

def Externals.message (domain : String) (address : Address) : List UInt8 :=
  utf8 domain ++ env.addressBytes address

def Externals.verify (key signature : String) (message : List UInt8) : Except Error Unit := do
  let key ← unhex key 32
  let signature ← unhex signature 64
  if env.ed25519 key message signature then .ok () else .error (.invalid "receipt signature")

def Scope.validate (scope : Scope) : Except Error Unit :=
  if isNil scope.authority ∨ isNil scope.project ∨ ¬ validBranch scope.branch then
    .error (.invalid "receipt scope")
  else .ok ()

def receiptDomain : String := "dynodoc.ref-receipt\x00v1\x00"
def signDomain : String := "dynodoc.ref-receipt-signature\x00v1\x00"

def Receipt.address (receipt : Receipt Address) : Except Error Address := do
  receipt.scope.validate
  if receipt.version ≠ 1 ∨ receipt.head.generation < 1 ∨ receipt.issuedAtMs < 0 ∨
      decide (receipt.head.generation = 1) ≠ receipt.previous.isNone then
    .error (.invalid "receipt envelope")
  else do
    let _ ← unhex receipt.issuerKey 32
    env.hash receiptDomain (env.receiptJson receipt)

def SignedReceipt.verify (signed : SignedReceipt Address) : Except Error Address := do
  let address ← signed.receipt.address env
  env.verify signed.receipt.issuerKey signed.signature (env.message signDomain address)
  .ok address

def Transition.validate (t : Transition) : Except Error Unit :=
  if t.version ≠ 1 ∨ isNil t.authority ∨ t.fromEpoch < 1 ∨ t.toEpoch ≠ t.fromEpoch + 1 ∨
      t.toEpoch > maxEpoch ∨ t.oldKey = t.newKey ∨ t.declaredAtMs < 0 ∨
      (utf8 t.reason).length > maxReasonBytes ∨ t.reason.toList.any isControl ∨
      (t.kind = .recovery ∧ t.reason.toList.all isWhitespace) then
    .error (.invalid "authority epoch statement")
  else do
    let _ ← unhex t.oldKey 32
    let _ ← unhex t.newKey 32
    let _ ← unhex t.sealed.digest 32
    .ok ()

def epochDomain : String := "dynodoc.ref-authority-epoch\x00v1\x00"
def epochSignDomain : String := "dynodoc.ref-authority-epoch-signature\x00v1\x00"

def Transition.address (t : Transition) : Except Error Address := do
  t.validate
  env.hash epochDomain (env.transitionJson t)

/-- A rotation is signed by both keys, a recovery by the new one only. -/
def SignedTransition.verifyOld (s : SignedTransition) (message : List UInt8) : Except Error Unit :=
  match s.transition.kind, s.oldSignature with
  | .rotation, some signature => env.verify s.transition.oldKey signature message
  | .recovery, none => .ok ()
  | _, _ => .error (.invalid "authority statement signatures")

def SignedTransition.verify (s : SignedTransition) : Except Error Address := do
  let address ← s.transition.address env
  let message := env.message epochSignDomain address
  env.verify s.transition.newKey s.newSignature message
  s.verifyOld env message
  if (env.signedJson s).length > maxStatementBytes then .error (.limit "authority statement bytes")
  else .ok address

def rotationDomain : String := "dynodoc.ref-authority-rotation\x00v1\x00"
def rotationSignDomain : String := "dynodoc.ref-authority-rotation-signature\x00v1\x00"

def Rotation.address (r : Rotation Address) : Except Error Address := do
  r.scope.validate
  let _ ← unhex r.oldKey 32
  let _ ← unhex r.newKey 32
  if r.version ≠ 1 ∨ r.nextGeneration < 2 ∨ r.oldKey = r.newKey then
    .error (.invalid "authority rotation")
  else env.hash rotationDomain (env.rotationJson r)

end Signatures

section Facts

variable {env : Externals Address}

def SignedTransition.SignedByBoth (env : Externals Address) (s : SignedTransition) : Prop :=
  ∃ address signature, s.transition.address env = .ok address ∧ s.oldSignature = some signature ∧
    env.verify s.transition.oldKey signature (env.message epochSignDomain address) = .ok () ∧
    env.verify s.transition.newKey s.newSignature (env.message epochSignDomain address) = .ok ()

def SignedRotation.SignedByBoth (env : Externals Address) (s : SignedRotation Address) : Prop :=
  ∃ address, s.rotation.address env = .ok address ∧
    env.verify s.rotation.oldKey s.oldSignature (env.message rotationSignDomain address) = .ok () ∧
    env.verify s.rotation.newKey s.newSignature (env.message rotationSignDomain address) = .ok ()

variable {address : Address}

theorem SignedTransition.signedByBoth
    (verified : s.verify env = .ok address) (rotation : s.transition.kind = .rotation) :
    s.SignedByBoth env := by
  obtain ⟨found, addressed, verified⟩ := bind_eq_ok.1 verified
  obtain ⟨⟨⟩, new, verified⟩ := bind_eq_ok.1 verified
  obtain ⟨⟨⟩, old, -⟩ := bind_eq_ok.1 verified
  rw [SignedTransition.verifyOld, rotation] at old
  cases signature : s.oldSignature with
  | none => simp [signature] at old
  | some signature' =>
    rw [signature] at old
    exact ⟨found, signature', addressed, signature, old, new⟩

theorem SignedTransition.epochs
    (verified : s.verify env = .ok address) : s.transition.toEpoch = s.transition.fromEpoch + 1 := by
  obtain ⟨found, addressed, -⟩ := bind_eq_ok.1 verified
  obtain ⟨⟨⟩, valid, -⟩ := bind_eq_ok.1 addressed
  obtain ⟨fine, valid⟩ := guard_eq_ok.1 valid
  simp only [not_or, not_not] at fine
  exact fine.2.2.2.1

end Facts

end Dynodoc.Authority
