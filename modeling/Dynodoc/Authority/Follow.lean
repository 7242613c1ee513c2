import Dynodoc.Authority.Pin

/-! Whether a pin can follow the keys that vetting accepts. -/
namespace Dynodoc.Authority
open Loop List Option Pin

variable {Address : Type} {env : Externals Address} {pin : Pin Address} {key trusted : String}
  {receipt : SignedReceipt Address} {path : List SignedTransition} {chain : Chain env}

theorem followPath_linked {authority : Log.Uuid} {epoch : Option Nat}
    (rotations : ∀ s ∈ path, s.transition.kind = .rotation ∧ s.transition.authority = authority ∧
      ∃ address, s.verify env = .ok address)
    (linked : path.IsChain Follows)
    (first : ∀ s ∈ path.head?, s.transition.oldKey = key ∧ ∀ e ∈ epoch, e = s.transition.fromEpoch) :
    followPath env authority key epoch path =
      .ok ((path.getLast?.map fun s => s.transition.newKey).getD key) := by
  induction path generalizing key epoch with
  | nil => rfl
  | cons s rest ih =>
    obtain ⟨⟨rotation, named, address, verified⟩, rotations⟩ := forall_mem_cons.1 rotations
    obtain ⟨old, leaves⟩ := first s rfl
    obtain ⟨follows, linked⟩ := isChain_cons.1 linked
    have fits : ¬ (s.transition.authority ≠ authority ∨ s.transition.oldKey ≠ key ∨
        epoch.any (· ≠ s.transition.fromEpoch)) := by
      simpa [named, old, Option.any_eq_false] using leaves
    have goesOn : followPath env authority s.transition.newKey (some s.transition.toEpoch) rest = _ :=
      ih rotations linked fun next isNext =>
        ⟨(follows next isNext).2, by simp [(follows next isNext).1]⟩
    rw [followPath, verified]
    change (if _ then _ else if _ then _ else _) = _
    rw [if_neg (not_not.2 rotation), if_neg fits, goesOn, getLast?_cons]
    cases rest.getLast? <;> rfl

/-- A path from the trusted key to a later one leads a pin there. -/
theorem followPath_path {served : Served env} {start stop : Nat} (old : served.Epoch trusted start)
    (new : served.Epoch key stop) (lt : start < stop) (found : served.chain.path trusted key = .ok path) :
    path ≠ [] ∧ followPath env served.chain.authority trusted none path = .ok key := by
  obtain ⟨i, j, here, there, lt⟩ := places_of_lt old new lt
  obtain ⟨rfl, rotations⟩ := (path_eq_ok here there lt.le).1 found
  obtain ⟨first, last⟩ := between_ends here there lt
  have inside := @between_consecutive _ _ served.chain i j
  constructor
  · intro empty
    simp [empty] at first
  have linked := IsChain.infix served.chain.linked inside
  rw [followPath_linked (fun s mem => ⟨rotations s mem, served.chain.named s (inside.subset mem),
    served.chain.verified s (inside.subset mem)⟩) linked, last]
  · rfl
  · intro s isFirst
    rw [mem_def.1 isFirst] at first
    exact ⟨some.inj first, by simp⟩

/-- A signed receipt under a key that takes up where a pin stands. -/
structure Continues (env : Externals Address) (pin : Pin Address) (key : String)
    (receipt : SignedReceipt Address) : Prop where
  signed : ∃ address, receipt.verify env = .ok address
  issuer : receipt.receipt.issuerKey = key
  scope : receipt.receipt.scope = pin.scope
  previous : ∃ prior ∈ receipt.receipt.previous, pin.current.verify env = .ok prior
  generation : some receipt.receipt.head.generation = checkedSucc pin.generation

section Receipt

variable [DecidableEq Address] (continues : Continues env pin key receipt)
include continues

theorem Continues.next : pin.next env receipt key = .ok ⟨key, receipt, false⟩ := by
  obtain ⟨address, signed⟩ := continues.signed
  obtain ⟨prior, previous, current⟩ := continues.previous
  rw [Pin.next, current, signed]
  change (if _ then _ else _) = _
  rw [if_neg]
  simp [continues.scope, continues.issuer, mem_def.1 previous, continues.generation]

/-- Once its own checks hold, a pin takes a receipt that continues it by one step along the chain. -/
theorem Continues.advanceChain (valid : pin.validate env = .ok ()) (live : pin.revoked = false)
    (own : chain.authority = pin.scope.authority) :
    pin.advanceChain chain [receipt] = Pin.advanceAlong chain (pin, []) receipt := by
  obtain ⟨address, signed⟩ := continues.signed
  have later := succ_of_checked continues.generation
  have checked : checkProof env pin.scope none none [receipt] = .ok () := by
    rw [checkProof, signed]
    simp [continues.scope, checkContiguous, checkProof]
    rfl
  have start : pin.startOf [receipt] = .ok 0 := by
    rw [Pin.startOf, if_neg]
    simp [later]
  simp [Pin.advanceChain, valid, live, maxProofReceipts, own, checked, start, bind, Except.bind]
  cases Pin.advanceAlong chain (pin, []) receipt <;> rfl

end Receipt

/-- A pin follows a key that vetting accepts just when at most a page of statements leads there. -/
theorem vetted_key_is_followed_within_page [DecidableEq Address] (env : Externals Address)
    (served : Served env) (pin : Pin Address) (key : String) (receipt : SignedReceipt Address)
    (valid : pin.validate env = .ok ()) (live : pin.revoked = false)
    (own : served.chain.authority = pin.scope.authority)
    (vetted : served.vet pin.trustedKey key = .ok ()) (continues : Continues env pin key receipt) :
    (∃ used, pin.advanceChain served.chain [receipt] = .ok (⟨key, receipt, false⟩, used)) ↔
      pin.trustedKey = key ∨ ∃ path, served.chain.path pin.trustedKey key = .ok path ∧
        path.length ≤ maxChainPage := by
  have new : receipt ≠ pin.current := by
    rintro rfl
    have := succ_of_checked continues.generation
    simp [Pin.generation] at this
  rw [continues.advanceChain valid live own, Pin.advanceAlong, if_neg new, continues.issuer]
  obtain ⟨_, _, old, after, way, -⟩ := vet_ok vetted
  by_cases same : pin.trustedKey = key
  · rw [if_pos same.symm, same, continues.next]
    simp [bind, Except.bind]
  · obtain ⟨lt, path, found⟩ := way.resolve_left same
    obtain ⟨some, followed⟩ := followPath_path old after lt found
    rw [own] at followed
    have rotates : pin.rotateAuthority env path receipt =
        if path.length > maxChainPage then .error (.limit "authority rotation path")
        else .ok ⟨key, receipt, false⟩ := by
      rw [Pin.rotateAuthority, valid]
      change (if _ then _ else if _ then _ else _) = _
      rw [live, if_neg (by simp), followed]
      simp only [some, false_or]
      exact if_congr Iff.rfl rfl continues.next
    rw [if_neg (Ne.symm same), found]
    simp only [same, false_or, Except.ok.injEq, exists_eq_left', rotates]
    split <;> simp [bind, Except.bind] <;> omega

/-- Different keys, from the first of the samples on. -/
def keyAt (n : Nat) : String :=
  String.ofList (((n / 16 + 10) % 16).digitChar :: ((n + 10) % 16).digitChar :: replicate 62 'a')

def statementAt (n : Nat) : SignedTransition :=
  ⟨⟨1, .rotation, sampleScope.authority, n + 1, n + 2, keyAt n, keyAt (n + 1), ⟨0, sampleKey '0'⟩, "", 0⟩,
    some firstReceipt.signature, firstReceipt.signature⟩

def receiptAt (n : Nat) : SignedReceipt (List UInt8) :=
  ⟨{ secondReceipt.receipt with issuerKey := keyAt n }, secondReceipt.signature⟩

def samplePin : Pin (List UInt8) := ⟨keyAt 0, firstReceipt, false⟩

/-- What a server serves after so many rotations. -/
def servedAfter (n : Nat) : Except Error (Served sampleExternals) := do
  let chain ← Chain.new sampleExternals sampleScope.authority ((range n).map statementAt)
  Served.new chain (keyAt n) (n + 1) ∅

theorem receiptAt_continues {n : Nat} (signed : ((receiptAt n).verify sampleExternals).toOption.isSome) :
    Continues sampleExternals samplePin (keyAt n) (receiptAt n) := by
  obtain ⟨address, verified⟩ := isSome_iff_exists.1 signed
  have previous : ∃ prior ∈ (receiptAt 0).receipt.previous,
      samplePin.current.verify sampleExternals = .ok prior := by decide +kernel
  exact ⟨⟨address, toOption_eq_some.1 verified⟩, rfl, rfl, previous, rfl⟩

theorem next_key_is_followed : ∃ served ∈ (servedAfter 1).toOption, ∃ used,
    samplePin.advanceChain served.chain [receiptAt 1] = .ok (⟨keyAt 1, receiptAt 1, false⟩, used) := by
  have serves : ∃ served ∈ (servedAfter 1).toOption, served.chain.authority = sampleScope.authority ∧
      served.vet (keyAt 0) (keyAt 1) = .ok () ∧
      served.chain.path (keyAt 0) (keyAt 1) = .ok [statementAt 0] := by
    decide +kernel
  obtain ⟨served, mem, own, vetted, found⟩ := serves
  refine ⟨served, mem, (vetted_key_is_followed_within_page sampleExternals served samplePin (keyAt 1)
    (receiptAt 1) (by decide +kernel) rfl own vetted (receiptAt_continues (by decide +kernel))).2 ?_⟩
  exact .inr ⟨_, found, by decide⟩

/-- A key that 65 rotations lead to passes vetting, but the pin of the first key does not get there. -/
theorem far_key_is_vetted_not_followed : Continues sampleExternals samplePin (keyAt 65) (receiptAt 65) ∧
    samplePin.validate sampleExternals = .ok () ∧ samplePin.revoked = false ∧
    ∃ served ∈ (servedAfter 65).toOption,
      served.chain.authority = samplePin.scope.authority ∧
      served.vet samplePin.trustedKey (keyAt 65) = .ok () ∧
      samplePin.advanceChain served.chain [receiptAt 65] = .error (.limit "authority rotation path") :=
  ⟨receiptAt_continues (by decide +kernel), by decide +kernel, rfl, by decide +kernel⟩

end Dynodoc.Authority
