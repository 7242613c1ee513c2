import Dynodoc.Document.State

/-! Merge strategies: what a rule of a merge policy can choose to decide one field or collection. -/
namespace Dynodoc.Policy
open Std (ExtTreeMap)

/-- How strictly a decision must be reviewed, the strictest last. -/
inductive Gate where
  | auto
  | autoWithReview
  | manual
  | blocked
  deriving DecidableEq

def Gate.name : Gate → String
  | auto => "auto"
  | autoWithReview => "auto-with-review"
  | manual => "manual"
  | blocked => "blocked"

def Gate.rank : Gate → Nat
  | auto => 0
  | autoWithReview => 1
  | manual => 2
  | blocked => 3

inductive Family where
  | document
  | spreadsheet
  | presentation
  deriving DecidableEq

def Family.name : Family → String
  | document => "document"
  | spreadsheet => "spreadsheet"
  | presentation => "presentation"

/-- A collection of the document as a whole, as opposed to a field of a node. -/
inductive Aspect where
  | marks
  | structural
  | comments
  | suggestions
  deriving DecidableEq

def Aspect.name : Aspect → String
  | marks => "marks"
  | structural => "structure"
  | comments => "comments"
  | suggestions => "suggestions"

inductive Side where
  | team
  | draft
  deriving DecidableEq

structure Inputs where
  base : Value
  team : Value
  draft : Value

def Inputs.swapped (i : Inputs) : Inputs := ⟨i.base, i.draft, i.team⟩

/-- Where a decision is taken. -/
structure Context where
  node : Option NodeId
  nodeType : String
  field : String
  aspect : Option Aspect
  family : Family
  params : ExtTreeMap String Value

structure Reason where
  code : String
  deriving DecidableEq

namespace Reason

def bothChanged : Reason := ⟨"both-changed"⟩
def overlap : Reason := ⟨"overlapping-edit"⟩
def tooLarge : Reason := ⟨"too-large"⟩
def elementDiffers : Reason := ⟨"element-differs"⟩
def unsupportedShape : Reason := ⟨"unsupported-shape"⟩

end Reason

inductive Outcome where
  | merged (value : Value)
  | prefer (side : Side)
  | conflict (reason : Reason)
  deriving DecidableEq

structure Used where
  basis : String
  lost : List Value
  notes : List String
  deriving DecidableEq

structure Resolved where
  outcome : Outcome
  used : Used
  deriving DecidableEq

namespace Resolved

def merged (value : Value) (basis : String) : Resolved := ⟨.merged value, ⟨basis, [], []⟩⟩

def conflict (reason : Reason) (basis : String) : Resolved := ⟨.conflict reason, ⟨basis, [], []⟩⟩

def withNotes (r : Resolved) (notes : List String) : Resolved :=
  { r with used := { r.used with notes := notes } }

end Resolved

inductive ParamType where
  | bool
  | int (min max : Int)
  | oneOf (options : List String)

structure ParamSpec where
  name : String
  ty : ParamType

/-- The laws that a strategy promises, one bit each. -/
structure Laws where
  bits : UInt8
  deriving DecidableEq

namespace Laws

def symmetry : Laws := ⟨1⟩
def all : Laws := ⟨255⟩
def contains (laws other : Laws) : Bool := laws.bits &&& other.bits = other.bits
def without (laws other : Laws) : Laws := ⟨laws.bits &&& ~~~ other.bits⟩

end Laws

structure Strategy where
  id : String
  params : List ParamSpec := []
  aspects : List Aspect := []
  promises : Laws := .all
  maxInputBytes : Option Nat := none
  resolve : Inputs → Context → Resolved

structure Registry where
  strategies : List Strategy

def Registry.get (registry : Registry) (id : String) : Option Strategy :=
  registry.strategies.find? fun s => s.id = id

/-- What every three-way choice takes first: equal sides, or the one side that changed. -/
def unchangedSide (i : Inputs) : Option Resolved :=
  if i.draft = i.base ∨ i.draft = i.team then some (.merged i.team "unchanged-or-team-only")
  else if i.team = i.base then some (.merged i.draft "draft-only")
  else none

open Resolved

theorem unchangedSide_swapped (i : Inputs) :
    (unchangedSide i.swapped).map outcome = (unchangedSide i).map outcome := by
  unfold unchangedSide Inputs.swapped
  by_cases team : i.team = i.base
  · by_cases draft : i.draft = i.base
    · simp [team, draft]
    · by_cases same : i.draft = i.team
      · simp [team, draft, merged]
      · simp [team, draft, merged]
  · by_cases draft : i.draft = i.base
    · simp [team, draft, merged]
    · by_cases same : i.draft = i.team
      · simp [same]
      · simp [team, draft, same, Ne.symm same]

theorem unchangedSide_eq_none {i : Inputs} :
    unchangedSide i = none ↔ i.draft ≠ i.base ∧ i.draft ≠ i.team ∧ i.team ≠ i.base := by
  unfold unchangedSide
  by_cases team : i.team = i.base <;> by_cases draft : i.draft = i.base <;>
    by_cases same : i.draft = i.team <;> simp_all

end Dynodoc.Policy
