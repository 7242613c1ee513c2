import Dynodoc.Policy.Builtin

/-! The merge policy: which strategy decides which field, and how strictly. A policy is read from
JSON by a strict loader and then checked rule by rule. -/
namespace Dynodoc.Policy
open Std (ExtTreeMap)
open Loop
open Text (isControl)

variable {path : String}

inductive Unknown where
  | manual
  | blocked
  deriving DecidableEq

inductive Loser where
  | none
  | suggestion
  | comment
  deriving DecidableEq

inductive InvariantMode where
  | flag
  | conflict
  deriving DecidableEq

inductive Role where
  | owner
  | manager
  | editor
  | contributor
  | reviewer
  deriving DecidableEq

def Unknown.name : Unknown → String
  | .manual => "manual"
  | .blocked => "blocked"

def Loser.name : Loser → String
  | .none => "none"
  | .suggestion => "suggestion"
  | .comment => "comment"

def InvariantMode.name : InvariantMode → String
  | .flag => "flag"
  | .conflict => "conflict"

def Role.name : Role → String
  | .owner => "owner"
  | .manager => "manager"
  | .editor => "editor"
  | .contributor => "contributor"
  | .reviewer => "reviewer"

structure Defaults where
  unknown : Unknown
  loser : Loser
  rolesRank : List Role
  invariants : InvariantMode
  deriving DecidableEq

/-- Which decisions a rule applies to. Every part that is present must hold; a rule with an aspect
is about that collection, one without is about fields of nodes. -/
structure Match where
  family : Option Family
  types : Option (List String)
  field : Option String
  aspect : Option Aspect
  deriving DecidableEq

/-- What a decision looks like to the rules. -/
structure Probe where
  family : Family
  nodeType : String
  blockType : Option String
  field : String
  aspect : Option Aspect

variable {probe : Probe}

namespace Match

def empty : Match := ⟨none, none, none, none⟩

def isCatchAll (m : Match) : Bool := m = empty

def sorted (m : Match) : Match :=
  { m with types := m.types.map fun types => types.insertionSort (· ≤ ·) }

def isStar (pattern : String) : Bool := pattern.toList.getLast? = some '*'

/-- A pattern without the star it may end in. -/
def body (pattern : String) : List Char :=
  if isStar pattern then pattern.toList.dropLast else pattern.toList

/-- A name, or the start of one when the pattern ends in a star. -/
def fieldMatches (pattern field : String) : Bool :=
  if isStar pattern then (body pattern).isPrefixOf field.toList else field = pattern

def accepts (m : Match) (probe : Probe) : Bool :=
  m.aspect = probe.aspect && m.family.all (fun family => family = probe.family) &&
    m.types.all (fun types =>
      types.any fun name => name = probe.nodeType || some name = probe.blockType) &&
    m.field.all fun pattern => fieldMatches pattern probe.field

end Match

structure Rule where
  id : String
  description : Option String
  matcher : Match
  strategy : String
  params : ExtTreeMap String Value
  gate : Gate

structure MergePolicy where
  version : Nat
  id : String
  description : Option String
  defaults : Defaults
  rules : List Rule
  floors : ExtTreeMap String Gate

inductive ErrorKind where
  | version
  | id
  | text
  | roles
  | tooManyRules
  | duplicateRuleId
  | matchType
  | matchField
  | unknownStrategy
  | aspectMismatch
  | unknownParameter
  | parameterType
  | parameterRange
  | shadowed
  | weakensFloor
  | unknownFloorStrategy
  | canonicalTooLarge
  deriving DecidableEq

/-- What was refused, and where in the policy. -/
structure PolicyError where
  kind : ErrorKind
  path : String
  message : String
  deriving DecidableEq

def policyVersion : Nat := 1
def maxCanonicalBytes : Nat := 16384
def maxRules : Nat := 64
def maxText : Nat := 256
def maxTypes : Nat := 16

def isIdChar (c : Char) : Bool := c.isLower || c.isDigit || c ∈ ['.', '_', '-']

def checkId (value path : String) : Except PolicyError Unit :=
  if value ≠ "" ∧ value.utf8ByteSize ≤ 64 ∧ value.toList.head?.any (fun c => c.isLower || c.isDigit) ∧
      value.toList.all isIdChar then .ok ()
  else .error ⟨.id, path, "`" ++ value ++ "` is not an identifier: 1-64 characters from a-z, 0-9, " ++
    "`.`, `_`, `-`, starting with a letter or digit"⟩

def checkText (value : Option String) (path : String) : Except PolicyError Unit :=
  if value.any fun text => text.toList.length > maxText || text.toList.any isControl then
    .error ⟨.text, path, "description must be at most " ++ toString maxText ++
      " characters without control characters"⟩
  else .ok ()

def checkTypeName (name : String) : Bool :=
  name ≠ "" && name.utf8ByteSize ≤ 32 && name.toList.head?.any Char.isAlpha &&
    name.toList.all fun c => c.isAlphanum || c = '_'

def checkField (pattern : String) : Bool :=
  pattern ≠ "" && pattern.utf8ByteSize ≤ 64 &&
    (Match.body pattern).all fun c => c.isAlphanum || c ∈ ['_', '$', ':', '.', '-']

def checkType (path : String) (seen : List String) (name : String) : Except PolicyError (List String) :=
  if !checkTypeName name then
    .error ⟨.matchType, path,
      "`" ++ name ++ "` is not a type name (a letter, then letters, digits or `_`; at most 32)"⟩
  else if name ∈ seen then .error ⟨.matchType, path, "`" ++ name ++ "` is listed twice"⟩
  else .ok (name :: seen)

def validateTypes (at_ : String) (types : List String) : Except PolicyError Unit := do
  let path := at_ ++ ".match.type"
  if types = [] ∨ maxTypes < types.length then
    .error ⟨.matchType, path, "must list between 1 and " ++ toString maxTypes ++ " types"⟩
  else
    let _ ← types.foldlM (checkType path) []
    .ok ()

def validateField (at_ field : String) : Except PolicyError Unit :=
  if checkField field then .ok ()
  else .error ⟨.matchField, at_ ++ ".match.field",
    "`" ++ field ++ "` is not a field name or a prefix ending in `*`"⟩

def validateMatch (m : Match) (at_ : String) : Except PolicyError Unit := do
  m.types.forM (validateTypes at_)
  m.field.forM (validateField at_)

/-- `Value::as_i64`. -/
def asI64 : Value → Option Int
  | .num (.int n) => if -(2 ^ 63) ≤ n ∧ n < 2 ^ 63 then some n else none
  | _ => none

def isBool : Value → Bool
  | .bool _ => true
  | _ => false

def checkParam (path : String) (value : Value) : ParamType → Except PolicyError Unit
  | .bool => if isBool value then .ok () else .error ⟨.parameterType, path, "must be true or false"⟩
  | .int min max =>
    match asI64 value with
    | none => .error ⟨.parameterType, path, "must be an integer"⟩
    | some n =>
      if n < min ∨ max < n then
        .error ⟨.parameterRange, path,
          toString n ++ " is outside " ++ toString min ++ "..=" ++ toString max⟩
      else .ok ()
  | .oneOf options =>
    match value.asStr with
    | none => .error ⟨.parameterType, path, "must be text"⟩
    | some s =>
      if s ∈ options then .ok ()
      else .error ⟨.parameterRange, path, "`" ++ s ++ "` is not one of " ++ ", ".intercalate options⟩

def validateParam (rule : Rule) (strategy : Strategy) (at_ : String) (param : String × Value) :
    Except PolicyError Unit :=
  let path := at_ ++ ".params." ++ param.1
  match strategy.params.find? fun spec => spec.name = param.1 with
  | none => .error ⟨.unknownParameter, path,
      "strategy `" ++ rule.strategy ++ "` has no parameter `" ++ param.1 ++ "`"⟩
  | some spec => checkParam path param.2 spec.ty

/-- A strategy decides node fields, or the collections it names. -/
def Strategy.decides (strategy : Strategy) : Option Aspect → Bool
  | some aspect => aspect ∈ strategy.aspects
  | none => strategy.aspects = []

def whatDecided : Option Aspect → String
  | some aspect => "the `" ++ aspect.name ++ "` collection"
  | none => "node fields"

namespace MergePolicy

def validateStrategy (policy : MergePolicy) (rule : Rule) (at_ : String) (registry : Registry) :
    Except PolicyError Unit := do
  match registry.get rule.strategy with
  | none => .error ⟨.unknownStrategy, at_ ++ ".strategy", "unknown strategy `" ++ rule.strategy ++ "`"⟩
  | some strategy =>
    if !strategy.decides rule.matcher.aspect then
      .error ⟨.aspectMismatch, at_ ++ ".strategy", "strategy `" ++ rule.strategy ++
        "` does not decide " ++ whatDecided rule.matcher.aspect⟩
    else
      rule.params.toList.forM (validateParam rule strategy at_)
      match policy.floors[rule.strategy]? with
      | none => .ok ()
      | some floor =>
        if rule.gate.rank < floor.rank then
          .error ⟨.weakensFloor, at_ ++ ".gate", "gate `" ++ rule.gate.name ++
            "` is weaker than the floor `" ++ floor.name ++ "` for `" ++ rule.strategy ++ "`"⟩
        else .ok ()

/-- An earlier rule that is taken to match wherever this one does. -/
def shadowing (policy : MergePolicy) (i : Nat) (rule : Rule) : Option Rule :=
  (policy.rules.take i).find? fun e => e.matcher.isCatchAll || e.matcher.sorted = rule.matcher.sorted

def ruleAt (i : Nat) : String := "rules[" ++ toString i ++ "]"

def validateRule (policy : MergePolicy) (registry : Registry) (ids : List String) (entry : Rule × Nat) :
    Except PolicyError (List String) := do
  let rule := entry.1
  let at_ := ruleAt entry.2
  checkId rule.id (at_ ++ ".id")
  if rule.id ∈ ids then
    .error ⟨.duplicateRuleId, at_ ++ ".id", "rule id `" ++ rule.id ++ "` is used twice"⟩
  else
    checkText rule.description (at_ ++ ".description")
    validateMatch rule.matcher at_
    policy.validateStrategy rule at_ registry
    match policy.shadowing entry.2 rule with
    | some earlier => .error ⟨.shadowed, at_ ++ ".match",
        "rule `" ++ earlier.id ++ "` always matches first, so this rule never runs"⟩
    | none => .ok (rule.id :: ids)

/-- A member that is left out when there is no value. -/
def optional (name : String) : Option Value → List (String × Value)
  | some value => [(name, value)]
  | none => []

def matchValue (m : Match) : Value :=
  .fields (optional "family" (m.family.map fun family => .str family.name) ++
    optional "type" (m.types.map fun types => .array (types.map .str)) ++
    optional "field" (m.field.map .str) ++ optional "aspect" (m.aspect.map fun aspect => .str aspect.name))

def ruleValue (rule : Rule) : Value :=
  .fields ([("id", .str rule.id)] ++ optional "description" (rule.description.map .str) ++
    [("match", matchValue rule.matcher.sorted), ("strategy", .str rule.strategy),
      ("params", .object rule.params), ("gate", .str rule.gate.name)])

def defaultsValue (d : Defaults) : Value :=
  .fields [("unknown", .str d.unknown.name), ("loser", .str d.loser.name),
    ("roles_rank", .array (d.rolesRank.map fun role => .str role.name)),
    ("invariants", .str d.invariants.name)]

/-- The policy with every default written out, which is what is hashed. -/
def canonicalValue (policy : MergePolicy) : Value :=
  .fields ([("version", .num (.int policy.version)), ("id", .str policy.id)] ++
    optional "description" (policy.description.map .str) ++
    [("defaults", defaultsValue policy.defaults), ("rules", .array (policy.rules.map ruleValue)),
      ("floors", .fields [("gate_at_least", .object (policy.floors.map fun _ gate => .str gate.name))])])

def validateFloor (registry : Registry) (floor : String × Gate) : Except PolicyError Unit :=
  match registry.get floor.1 with
  | none => .error ⟨.unknownFloorStrategy, "floors.gate_at_least." ++ floor.1,
      "unknown strategy `" ++ floor.1 ++ "`"⟩
  | some _ => .ok ()

def validate (policy : MergePolicy) (env : Externals) (registry : Registry) : Except PolicyError Unit := do
  if policy.version ≠ policyVersion then
    .error ⟨.version, "version", "version " ++ toString policy.version ++
      " is not supported; only " ++ toString policyVersion ++ " is"⟩
  else
    checkId policy.id "id"
    checkText policy.description "description"
    if policy.defaults.rolesRank = [] ∨ ¬ policy.defaults.rolesRank.Nodup then
      .error ⟨.roles, "defaults.roles_rank", "must list each role at most once and at least one role"⟩
    else if maxRules < policy.rules.length then
      .error ⟨.tooManyRules, "rules", toString policy.rules.length ++ " rules; the limit is " ++
        toString maxRules⟩
    else
      let _ ← policy.rules.zipIdx.foldlM (policy.validateRule registry) []
      policy.floors.toList.forM (validateFloor registry)
      let size := (canonicalJson env policy.canonicalValue).utf8ByteSize
      if maxCanonicalBytes < size then
        .error ⟨.canonicalTooLarge, "", "canonical form is " ++ toString size ++ " bytes; the limit is " ++
          toString maxCanonicalBytes⟩
      else .ok ()

end MergePolicy

section Shadowing

open MergePolicy

variable {e : PolicyError} {m : Match} {at_ : String} {policy : MergePolicy} {registry : Registry}

/-- The types of a match are a set: their order does not matter to what it accepts. -/
theorem accepts_of_sorted {m n : Match} (same : m.sorted = n.sorted) (probe : Probe) :
    m.accepts probe = n.accepts probe := by
  obtain ⟨family, types, field, aspect⟩ := m
  obtain ⟨family', types', field', aspect'⟩ := n
  obtain ⟨rfl, sorted, rfl, rfl⟩ := Match.mk.inj same
  have any_eq (p : String → Bool) : (types.all fun names => names.any p) =
      types'.all fun names => names.any p := by
    have perm (l : List String) : (l.insertionSort (· ≤ ·)).any p = l.any p :=
      (List.perm_insertionSort _ l).any_eq
    have all_sorted (o : Option (List String)) : (o.all fun names => names.any p) =
        (o.map fun names => names.insertionSort (· ≤ ·)).all fun names => names.any p := by
      cases o with
      | none => rfl
      | some names => exact (perm names).symm
    rw [all_sorted types, sorted, ← all_sorted types']
  unfold Match.accepts
  rw [any_eq]

theorem catchAll_accepts (empty : m.isCatchAll)
    (field : probe.aspect = none) : m.accepts probe := by
  have same : m = Match.empty := by simpa [Match.isCatchAll] using empty
  subst same
  simp [Match.accepts, Match.empty, field]

theorem aspect_of_accepts (accepted : m.accepts probe) : m.aspect = probe.aspect := by
  simp only [Match.accepts, Bool.and_eq_true, decide_eq_true_eq] at accepted
  exact accepted.1.1.1

theorem checkId_kind {value : String} (refused : checkId value path = .error e) : e.kind = .id := by
  unfold checkId at refused
  split at refused
  · contradiction
  cases refused
  rfl

theorem checkText_kind {value : Option String}
    (refused : checkText value path = .error e) : e.kind = .text := by
  unfold checkText at refused
  split at refused
  · cases refused
    rfl
  · contradiction

theorem validateTypes_kind {types : List String}
    (refused : validateTypes at_ types = .error e) : e.kind = .matchType := by
  unfold validateTypes at refused
  split at refused
  · cases refused
    rfl
  · rcases bind_eq_error.1 refused with refused | ⟨_, _, refused⟩
    · obtain ⟨_, name, _, seen, -, -, refused⟩ := foldlM_eq_error refused
      unfold checkType at refused
      split at refused
      · cases refused
        rfl
      · split at refused
        · cases refused
          rfl
        · contradiction
    · contradiction

theorem validateMatch_kind
    (refused : validateMatch m at_ = .error e) : e.kind = .matchType ∨ e.kind = .matchField := by
  rcases bind_eq_error.1 refused with refused | ⟨_, _, refused⟩
  · cases types : m.types with
    | none =>
      rw [types] at refused
      contradiction
    | some listed =>
      rw [types] at refused
      exact .inl (validateTypes_kind refused)
  · cases field : m.field with
    | none =>
      rw [field] at refused
      contradiction
    | some name =>
      rw [field] at refused
      change validateField at_ name = .error e at refused
      unfold validateField at refused
      split at refused
      · contradiction
      cases refused
      exact .inr rfl

theorem checkParam_kind {value : Value} {ty : ParamType}
    (refused : checkParam path value ty = .error e) :
    e.kind = .parameterType ∨ e.kind = .parameterRange := by
  unfold checkParam at refused
  split at refused
  · split at refused
    · contradiction
    cases refused
    exact .inl rfl
  · split at refused
    · cases refused
      exact .inl rfl
    · split at refused
      · cases refused
        exact .inr rfl
      · contradiction
  · split at refused
    · cases refused
      exact .inl rfl
    · split at refused
      · contradiction
      cases refused
      exact .inr rfl

theorem validateStrategy_kind {rule : Rule}
    (refused : policy.validateStrategy rule at_ registry = .error e) :
    e.kind ≠ .shadowed := by
  intro kind
  unfold validateStrategy at refused
  split at refused
  · cases refused
    cases kind
  split at refused
  · cases refused
    cases kind
  obtain ⟨_, refused⟩ := error_after refused fun refused => by
    obtain ⟨param, _, refused⟩ := forM_eq_error refused
    unfold validateParam at refused
    split at refused
    · cases refused
      cases kind
    · rcases checkParam_kind refused with other | other <;> rw [other] at kind <;> cases kind
  split at refused
  · contradiction
  split at refused
  · cases refused
    cases kind
  · contradiction

theorem validateRule_shadowed {ids : List String} {entry : Rule × Nat} (kind : e.kind = .shadowed)
    (refused : policy.validateRule registry ids entry = .error e) :
    ∃ earlier, policy.shadowing entry.2 entry.1 = some earlier ∧ e.path = ruleAt entry.2 ++ ".match" := by
  obtain ⟨_, refused⟩ := error_after refused fun refused => nomatch kind.symm.trans (checkId_kind refused)
  split at refused
  · cases refused
    cases kind
  obtain ⟨_, refused⟩ := error_after refused fun refused => nomatch kind.symm.trans (checkText_kind refused)
  obtain ⟨_, refused⟩ := error_after refused fun refused => by
    rcases validateMatch_kind refused with other | other <;> rw [other] at kind <;> cases kind
  obtain ⟨_, refused⟩ := error_after refused fun refused => validateStrategy_kind refused kind
  split at refused
  · rename_i earlier found
    cases refused
    exact ⟨earlier, found, rfl⟩
  · cases refused

theorem validateRule_match {ids ids' : List String} {entry : Rule × Nat}
    (checked : policy.validateRule registry ids entry = .ok ids') :
    validateMatch entry.1.matcher (ruleAt entry.2) = .ok () := by
  obtain ⟨_, -, checked⟩ := bind_eq_ok.1 checked
  obtain ⟨-, checked⟩ := guard_eq_ok.1 checked
  obtain ⟨_, -, checked⟩ := bind_eq_ok.1 checked
  obtain ⟨_, valid, -⟩ := bind_eq_ok.1 checked
  exact valid

theorem zipIdx_eq_append {l : List Rule} {done rest : List (Rule × Nat)} {rule : Rule} {i : Nat}
    (split : l.zipIdx = done ++ (rule, i) :: rest) : l[i]? = some rule ∧ l.take i = done.map Prod.fst := by
  have rules : l = done.map Prod.fst ++ rule :: rest.map Prod.fst := by
    simpa using congrArg (List.map Prod.fst) split
  have place : i = done.length := by
    have at_ := congrArg (fun entries => (entries[done.length]?).map Prod.snd) split
    have inside : done.length < l.length := by simp [rules]
    simpa [inside] using at_.symm
  rw [place, rules]
  simp

theorem validate_shadowed {env : Externals}
    (kind : e.kind = .shadowed) (refused : policy.validate env registry = .error e) :
    ∃ ids i rule, policy.rules[i]? = some rule ∧ policy.validateRule registry ids (rule, i) = .error e ∧
      ∀ earlier ∈ policy.rules.take i, ∃ at_, validateMatch earlier.matcher at_ = .ok () := by
  unfold validate at refused
  split at refused
  · cases refused
    cases kind
  obtain ⟨_, refused⟩ := error_after refused fun refused => nomatch kind.symm.trans (checkId_kind refused)
  obtain ⟨_, refused⟩ := error_after refused fun refused => nomatch kind.symm.trans (checkText_kind refused)
  split at refused
  · cases refused
    cases kind
  split at refused
  · cases refused
    cases kind
  rcases bind_eq_error.1 refused with refused | ⟨_, _, refused⟩
  · obtain ⟨done, ⟨rule, i⟩, rest, ids, split, passed, refused⟩ := foldlM_eq_error refused
    obtain ⟨here, before⟩ := zipIdx_eq_append split
    refine ⟨ids, i, rule, here, refused, fun earlier mem => ?_⟩
    rw [before] at mem
    obtain ⟨entry, inside, rfl⟩ := List.mem_map.1 mem
    exact foldlM_post (fun done _ => ∀ entry ∈ done, ∃ at_, validateMatch entry.1.matcher at_ = .ok ())
      (fun done entry ids ids' _ valid checked other mem => by
        obtain mem | mem := List.mem_append.1 mem
        · exact valid other mem
        · rw [List.mem_singleton.1 mem]
          exact ⟨_, validateRule_match checked⟩) (by simp) passed entry inside
  obtain ⟨_, refused⟩ := error_after refused fun refused => by
    obtain ⟨floor, _, refused⟩ := forM_eq_error refused
    unfold validateFloor at refused
    split at refused
    · cases refused
      cases kind
    · cases refused
  dsimp only at refused
  split at refused
  · cases refused
    cases kind
  · cases refused

theorem mem_types_valid {types : List String} (valid : validateTypes at_ types = .ok ()) :
    ∀ name ∈ types, checkTypeName name = true := by
  unfold validateTypes at valid
  obtain ⟨-, valid⟩ := guard_eq_ok.1 valid
  obtain ⟨seen, checked, -⟩ := bind_eq_ok.1 valid
  refine foldlM_post (fun done _ => ∀ name ∈ done, checkTypeName name = true)
    (fun done name seen seen' _ valid passed other mem => ?_) (by simp) checked
  obtain mem | mem := List.mem_append.1 mem
  · exact valid other mem
  · rw [List.mem_singleton.1 mem]
    simpa using (guard_eq_ok.1 passed).1

/-- A character that no checked pattern or type name has. -/
def strange : Char := '!'

/-- What the loader has checked of a match, as far as it is used here. -/
structure Plain (m : Match) : Prop where
  types : ∀ types ∈ m.types, String.ofList [strange] ∉ types
  field : ∀ pattern ∈ m.field, strange ∉ Match.body pattern

theorem plain_of_valid (valid : validateMatch m at_ = .ok ()) : Plain m := by
  obtain ⟨_, types, field⟩ := bind_eq_ok.1 valid
  constructor
  · intro listed some mem
    rw [Option.mem_def.1 some] at types
    exact absurd (mem_types_valid types _ mem) (by decide)
  · intro pattern some mem
    rw [Option.mem_def.1 some] at field
    change validateField at_ pattern = .ok () at field
    unfold validateField at field
    split at field
    · rename_i checked
      simp only [checkField, Bool.and_eq_true, List.all_eq_true] at checked
      exact absurd (checked.2 _ mem) (by decide)
    · contradiction

/-- The fields of one pattern, or all fields, are among those of another. -/
def Match.fieldWithin (pattern : Option String) (wider : String) : Bool :=
  match pattern with
  | none => wider = "*"
  | some pattern => if isStar wider then (body wider).isPrefixOf (body pattern) else wider = pattern

/-- A match takes in another one where it decides about a family and a type. -/
def Match.takesIn (wider m : Match) (family : Family) (type : Option String) : Bool :=
  wider.aspect = m.aspect && wider.family.all (fun other => other = family) &&
    wider.types.all (fun types => type.any fun name => name ∈ types) &&
    wider.field.all (fieldWithin m.field)

/-- The types a match lists, or that any type will do. -/
def Match.typeChoices (m : Match) : List (Option String) :=
  match m.types with
  | none => [none]
  | some types => types.map some

/-- For every family and type that a match admits, one of the earlier ones takes it in. -/
def Match.Covered (m : Match) (earlier : List Rule) : Prop :=
  ∀ family, m.family.all (fun only => only = family) → ∀ type ∈ m.typeChoices,
    ∃ rule ∈ earlier, rule.matcher.takesIn m family type

theorem fieldMatches_of_within {pattern : Option String} {wider field : String}
    (within : Match.fieldWithin pattern wider)
    (inside : pattern.all fun pattern => Match.fieldMatches pattern field) :
    Match.fieldMatches wider field := by
  cases pattern with
  | none =>
    have every : wider = "*" := by simpa [Match.fieldWithin] using within
    subst every
    rfl
  | some pattern =>
    simp only [Option.all_some, Match.fieldMatches, Match.fieldWithin] at inside within ⊢
    split at within
    · rename_i star
      rw [if_pos star]
      rw [List.isPrefixOf_iff_prefix] at within ⊢
      split at inside
      · exact within.trans (List.isPrefixOf_iff_prefix.1 inside)
      · rename_i exactly
        rw [of_decide_eq_true inside]
        simpa [Match.body, exactly] using within
    · rwa [of_decide_eq_true within]

theorem accepts_of_takesIn {wider : Match} {type : Option String} (accepted : m.accepts probe)
    (chosen : ∀ name ∈ type, name = probe.nodeType ∨ some name = probe.blockType)
    (takes : wider.takesIn m probe.family type) : wider.accepts probe := by
  simp only [Match.accepts, Match.takesIn, Bool.and_eq_true, decide_eq_true_eq] at accepted takes ⊢
  obtain ⟨⟨⟨aspect, -⟩, -⟩, inside⟩ := accepted
  obtain ⟨⟨⟨same, family⟩, types⟩, field⟩ := takes
  refine ⟨⟨⟨same.trans aspect, family⟩, ?_⟩, ?_⟩
  · cases listed : wider.types with
    | none => rfl
    | some names =>
      simp only [listed, Option.all_some, Option.any_eq_true, decide_eq_true_eq] at types
      obtain ⟨name, some, mem⟩ := types
      simpa using ⟨name, mem, chosen name some⟩
  · cases pattern : wider.field with
    | none => rfl
    | some wide =>
      rw [pattern] at field
      exact fieldMatches_of_within field inside

/-- A field that a pattern admits and only patterns that take it in admit as well. -/
def strangeField : Option String → String
  | none => String.ofList [strange]
  | some pattern =>
    if Match.isStar pattern then String.ofList (Match.body pattern ++ [strange]) else pattern

theorem fieldMatches_strangeField (pattern : String) :
    Match.fieldMatches pattern (strangeField (some pattern)) := by
  by_cases star : Match.isStar pattern <;> simp [Match.fieldMatches, strangeField, star]

theorem prefix_of_prefix_strange {l k : List Char} (usual : strange ∉ l) (within : l <+: k ++ [strange]) :
    l <+: k := by
  rcases List.prefix_concat_iff.1 within with whole | within
  · exact absurd (whole ▸ by simp) usual
  · exact within

theorem within_of_strangeField {pattern : Option String} {wider : String}
    (usual : strange ∉ Match.body wider)
    (inside : Match.fieldMatches wider (strangeField pattern)) : Match.fieldWithin pattern wider := by
  unfold Match.fieldMatches at inside
  split at inside
  · rename_i star
    rw [List.isPrefixOf_iff_prefix] at inside
    cases pattern with
    | none =>
      have nothing : Match.body wider = [] :=
        List.prefix_nil.1 (prefix_of_prefix_strange (k := []) usual (by simpa [strangeField] using inside))
      simp only [Match.body, star, if_true] at nothing
      simp only [Match.isStar, decide_eq_true_eq] at star
      have whole := List.dropLast_append_getLast? '*' (Option.mem_def.2 star)
      rw [nothing] at whole
      simpa [Match.fieldWithin, ← String.toList_inj] using whole.symm
    | some pattern =>
      simp only [Match.fieldWithin, if_pos star, List.isPrefixOf_iff_prefix]
      simp only [strangeField] at inside
      split at inside
      · exact prefix_of_prefix_strange usual (by simpa using inside)
      · rename_i exactly
        simpa [Match.body, exactly] using inside
  · rename_i exactly
    have same : strangeField pattern = wider := by simpa using inside
    have known : Match.body wider = wider.toList := by simp [Match.body, exactly]
    rw [known, ← same] at usual
    cases pattern with
    | none => simp [strangeField] at usual
    | some pattern =>
      simp only [strangeField] at same usual
      split at usual
      · simp at usual
      · rename_i exactly'
        rw [if_neg exactly'] at same
        simp [Match.fieldWithin, exactly, same]

/-- The probe that only a match which takes the whole choice in accepts. -/
def strangeProbe (m : Match) (family : Family) (type : Option String) : Probe :=
  ⟨family, type.getD (String.ofList [strange]), none, strangeField m.field, m.aspect⟩

theorem accepts_strangeProbe {family : Family} {type : Option String}
    (admitted : m.family.all fun only => only = family) (chosen : type ∈ m.typeChoices) :
    m.accepts (strangeProbe m family type) := by
  simp only [Match.accepts, strangeProbe, Bool.and_eq_true]
  refine ⟨⟨⟨rfl, admitted⟩, ?_⟩, ?_⟩
  · cases types : m.types with
    | none => rfl
    | some names =>
      simp only [Match.typeChoices, types, List.mem_map] at chosen
      obtain ⟨name, mem, rfl⟩ := chosen
      simpa using mem
  · cases field : m.field with
    | none => rfl
    | some pattern => exact fieldMatches_strangeField pattern

theorem takesIn_of_strangeProbe {wider : Match} {family : Family} {type : Option String}
    (plain : Plain wider)
    (accepted : wider.accepts (strangeProbe m family type)) : wider.takesIn m family type := by
  simp only [Match.accepts, strangeProbe, Bool.and_eq_true] at accepted
  obtain ⟨⟨⟨aspect, admitted⟩, types⟩, field⟩ := accepted
  simp only [Match.takesIn, Bool.and_eq_true]
  refine ⟨⟨⟨aspect, admitted⟩, ?_⟩, ?_⟩
  · cases listed : wider.types with
    | none => rfl
    | some names =>
      simp only [listed, Option.all_some, List.any_eq_true] at types
      obtain ⟨name, mem, here⟩ := types
      cases type with
      | none =>
        have odd : name = String.ofList [strange] := by simpa using here
        exact absurd (odd ▸ mem) (plain.types names listed)
      | some type =>
        have same : name = type := by simpa using here
        simpa using same ▸ mem
  · cases pattern : wider.field with
    | none => rfl
    | some wide =>
      rw [pattern] at field
      exact within_of_strangeField (plain.field wide pattern) field

theorem covered_iff {earlier : List Rule} (plain : ∀ rule ∈ earlier, Plain rule.matcher) :
    m.Covered earlier ↔ ∀ probe, m.accepts probe → ∃ rule ∈ earlier, rule.matcher.accepts probe := by
  constructor
  · intro covered probe accepted
    have parts := accepted
    simp only [Match.accepts, Bool.and_eq_true] at parts
    obtain ⟨⟨⟨-, admitted⟩, types⟩, -⟩ := parts
    obtain ⟨type, chosen, known⟩ : ∃ type ∈ m.typeChoices,
        ∀ name ∈ type, name = probe.nodeType ∨ some name = probe.blockType := by
      cases listed : m.types with
      | none => exact ⟨none, by simp [Match.typeChoices, listed], by simp⟩
      | some names =>
        simp only [listed, Option.all_some, List.any_eq_true] at types
        obtain ⟨name, mem, here⟩ := types
        exact ⟨some name, by simpa [Match.typeChoices, listed] using mem, by simpa using here⟩
    obtain ⟨rule, mem, takes⟩ := covered probe.family admitted type chosen
    exact ⟨rule, mem, accepts_of_takesIn accepted known takes⟩
  · intro never family admitted type chosen
    obtain ⟨rule, mem, accepted⟩ := never _ (accepts_strangeProbe admitted chosen)
    exact ⟨rule, mem, takesIn_of_strangeProbe (plain rule mem) accepted⟩

/-- A rule that is refused as shadowed can never run if and only if it is about fields, or the
earlier rules about its collection take it in. -/
theorem shadowed_rule_never_runs {policy : MergePolicy} {env : Externals} {registry : Registry}
    {e : PolicyError} (refused : policy.validate env registry = .error e) (kind : e.kind = .shadowed) :
    ∃ i rule, policy.rules[i]? = some rule ∧ e.path = ruleAt i ++ ".match" ∧
      ((∀ probe, rule.matcher.accepts probe →
          ∃ earlier ∈ policy.rules.take i, earlier.matcher.accepts probe) ↔
        rule.matcher.aspect = none ∨ rule.matcher.Covered (policy.rules.take i)) := by
  obtain ⟨ids, i, rule, here, refused, valid⟩ := validate_shadowed kind refused
  obtain ⟨earlier, found, path⟩ := validateRule_shadowed kind refused
  have exact_ := covered_iff (m := rule.matcher) fun other mem => by
    obtain ⟨at_, valid⟩ := valid other mem
    exact plain_of_valid valid
  refine ⟨i, rule, here, path, ?_⟩
  rw [← exact_]
  refine ⟨.inr, ?_⟩
  rintro (field | covered)
  · -- The earlier rule that was found is empty or equal, and an empty one accepts every field.
    refine exact_.2 fun probe accepted => ⟨earlier, List.mem_of_find?_eq_some found, ?_⟩
    have shadows := List.find?_some found
    simp only [Bool.or_eq_true, decide_eq_true_eq] at shadows
    rcases shadows with catchAll | sorted
    · apply catchAll_accepts catchAll
      rw [← aspect_of_accepts accepted, field]
    · rw [accepts_of_sorted sorted]
      exact accepted
  · exact covered

def sampleRule (id strategy : String) (matcher : Match) : Rule :=
  ⟨id, none, matcher, strategy, ∅, .auto⟩

/-- A rule for every field, then another one. -/
def samplePolicy (second : Rule) : MergePolicy :=
  ⟨1, "p", none, ⟨.manual, .suggestion, [.owner, .editor], .flag⟩,
    [sampleRule "all" "dynodoc.default.whole-value.v1" Match.empty, second], ∅⟩

def labelRule : Rule := sampleRule "label" "dynodoc.default.whole-value.v1" ⟨none, none, some "label", none⟩

def commentsRule : Rule :=
  sampleRule "comments" "dynodoc.collection.element-wise.v1" ⟨none, none, none, some .comments⟩

/-- A rule for one field behind a rule for every field never runs. -/
theorem label_rule_is_shadowed :
    (samplePolicy labelRule).validate RichText.sampleText (Registry.builtin RichText.sampleText) =
      .error ⟨.shadowed, "rules[1].match", "rule `all` always matches first, so this rule never runs"⟩ ∧
    ∀ probe, labelRule.matcher.accepts probe →
      ∃ earlier ∈ (samplePolicy labelRule).rules.take 1, earlier.matcher.accepts probe := by
  have refused : (samplePolicy labelRule).validate RichText.sampleText
    (Registry.builtin RichText.sampleText) =
      .error ⟨.shadowed, "rules[1].match", "rule `all` always matches first, so this rule never runs"⟩ := by
    decide +kernel
  obtain ⟨i, rule, here, path, never⟩ := shadowed_rule_never_runs refused rfl
  have second : i = 1 := by
    have small : i < 2 := (List.getElem?_eq_some_iff.1 here).1
    have notFirst : i ≠ 0 := by
      rintro rfl
      exact absurd path (by decide)
    omega
  subst second
  cases here
  exact ⟨refused, never.2 (.inl rfl)⟩

/-- A rule about comments is refused behind a rule for every field, although that one never
matches a collection. -/
theorem comments_rule_refused :
    (samplePolicy commentsRule).validate RichText.sampleText (Registry.builtin RichText.sampleText) =
      .error ⟨.shadowed, "rules[1].match", "rule `all` always matches first, so this rule never runs"⟩ ∧
    ∃ probe, commentsRule.matcher.accepts probe ∧
      ¬ ∃ earlier ∈ (samplePolicy commentsRule).rules.take 1, earlier.matcher.accepts probe := by
  refine ⟨by decide +kernel, ⟨.document, "", none, "$comments", some .comments⟩, by decide, ?_⟩
  decide

end Shadowing

end Dynodoc.Policy
