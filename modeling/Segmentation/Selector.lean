import Segmentation.Error
import Segmentation.SortedMap

namespace Segmentation

abbrev Labels := SortedMap String

/-- What a requirement asks of the label with its key. -/
inductive Operator where
  | oneOf
  | noneOf
  | present
  | absent
  deriving DecidableEq, Repr

def Operator.label : Operator → String
  | .oneOf => "In"
  | .noneOf => "NotIn"
  | .present => "Exists"
  | .absent => "NotExists"

/-- The last operator has two names. -/
def Operator.ofLabel? (s : String) : Option Operator :=
  if s = "In" then some .oneOf
  else if s = "NotIn" then some .noneOf
  else if s = "Exists" then some .present
  else if s = "NotExists" ∨ s = "DoesNotExist" then some .absent
  else none

def Operator.parse (s : String) : Except Error Operator :=
  match Operator.ofLabel? s with
  | some op => .ok op
  | none => .error (.invalid .operator s)

def Operator.needsValues : Operator → Bool
  | .oneOf | .noneOf => true
  | .present | .absent => false

structure Requirement where
  key : String
  operator : Operator
  values : List String
  deriving DecidableEq

namespace Requirement

def holds (r : Requirement) (labels : Labels) : Bool :=
  match r.operator, labels.get? r.key with
  | .oneOf, some v => r.values.contains v
  | .oneOf, none => false
  | .noneOf, some v => !r.values.contains v
  | .noneOf, none => true
  | .present, current => current.isSome
  | .absent, current => current.isNone

/-- A key is never empty, and there are values exactly where the operator compares them. -/
def check (r : Requirement) : Except Error Unit :=
  if r.key = "" then .error (.validation (.invalidRequirement .emptyKey))
  else if r.operator.needsValues = r.values.isEmpty then
    .error (.validation (.invalidRequirement
      (.valueCount r.key r.operator.label r.values.length)))
  else .ok ()

/-- Values after more of them, each once, in the order of their first occurrence. -/
def union (values more : List String) : List String :=
  more.foldl (fun vs v => if v ∈ vs then vs else vs ++ [v]) values

def absorb (r : Requirement) : List Requirement → List Requirement
  | [] => [{ r with values := union [] r.values }]
  | m :: rest =>
    if m.operator = r.operator ∧ m.key = r.key then
      { m with values := union m.values r.values } :: rest
    else m :: absorb r rest

def mergeAll (rs : List Requirement) : List Requirement :=
  rs.foldl (fun merged r => absorb r merged) []

/-- Requirements of one operator and key joined into the first of them. -/
def merge (rs : List Requirement) : Except Error (List Requirement) := do
  rs.forM check
  return mergeAll rs

end Requirement

structure LabelSelector where
  labels : Labels
  requirements : List Requirement
  deriving DecidableEq

namespace LabelSelector

def everything : LabelSelector := ⟨∅, []⟩

def isEmpty (s : LabelSelector) : Bool := s.labels.isEmpty && s.requirements.isEmpty

def selects (s : LabelSelector) (labels : Labels) : Bool :=
  (s.labels.entries.all fun e => labels.get? e.1 = some e.2) &&
    s.requirements.all fun r => r.holds labels

def withLabel (s : LabelSelector) (key value : String) : LabelSelector :=
  { s with labels := s.labels.insert key value }

def withRequirement (s : LabelSelector) (r : Requirement) : LabelSelector :=
  { s with requirements := s.requirements ++ [r] }

end LabelSelector

end Segmentation
