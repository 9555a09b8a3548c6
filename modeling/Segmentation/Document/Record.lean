import Segmentation.Document

namespace Segmentation.Document

def asText? : Document → Option String
  | .text s => some s
  | .scalar s => some s.text
  | _ => none

def asBool? : Document → Option Bool
  | .bool b => some b
  | .scalar s => s.bool?
  | _ => none

def asInteger? : Document → Option Int
  | .integer n => some n
  | .scalar s => s.integer?
  | _ => none

def asIntegerIn? (low high : Int) (d : Document) : Option Int := do
  let n ← d.asInteger?
  if low ≤ n ∧ n ≤ high then some n else none

def asNaturalIn? (bits : Nat) (d : Document) : Option Nat := do
  let n ← match d with
    | .integer n => n.toNat?
    | .scalar s => s.natural?
    | _ => none
  if n < 1 <<< bits then some n else none

def asCount? (d : Document) : Option Nat := d.asNaturalIn? 64

def asUInt16? (d : Document) : Option UInt16 := (d.asNaturalIn? 16).map Nat.toUInt16

def asInt32? (d : Document) : Option Int32 :=
  (d.asIntegerIn? Int32.minValue.toInt Int32.maxValue.toInt).map Int32.ofInt

def asInt64? (d : Document) : Option Int64 :=
  (d.asIntegerIn? Int64.minValue.toInt Int64.maxValue.toInt).map Int64.ofInt

def asItems? : Document → Option (List Document)
  | .sequence items => some items
  | .listing items => some items
  | .scalar s => if s.isEmpty then some [] else none
  | _ => none

def asList? {α : Type} (read? : Document → Option α) (d : Document) : Option (List α) := do
  (← d.asItems?).mapM read?

def isNull? : Document → Option Bool
  | .null => some true
  | .scalar s => s.isNull?
  | _ => some false

def asOption? {α : Type} (read? : Document → Option α) (d : Document) : Option (Option α) := do
  if ← d.isNull? then some none else (read? d).map some

def asEntries? : Document → Option (List (String × Document))
  | .mapping entries => some entries
  | .scalar s => if s.isEmpty then some [] else none
  | _ => none

/-- The one text among several that the document holds; a choice may also be written as a mapping
from its name to nothing. -/
def asChoice? {α : Type} (choice? : String → Option α) : Document → Option α
  | .text s => choice? s
  | .scalar s => s.choice?.bind choice?
  | .mapping [(s, .null)] => choice? s
  | _ => none

def asVariant? : Document → Option (String × Document)
  | .mapping [entry] => some entry
  | _ => none

def asMapping? : Document → Option Document
  | .mapping entries => some (.mapping entries)
  | _ => none

/-- The fields of a record, by name; in a record written as a sequence they stand in order. -/
structure Fields where
  find? : String → Option Document
  ordered : Bool

def fields? (names : List String) : Document → Option Fields
  | .mapping entries =>
    if names.all fun n => (entries.filter fun e => e.1 = n).length ≤ 1 then
      some ⟨fun n => entries.lookup n, false⟩
    else none
  | .sequence items =>
    if items.length ≤ names.length then some ⟨fun n => (names.zip items).lookup n, true⟩
    else none
  | .scalar s => if s.isEmpty then some ⟨fun _ => none, false⟩ else none
  | _ => none

namespace Fields

variable {α : Type}

def required (f : Fields) (name : String) (read? : Document → Option α) : Option α :=
  (f.find? name).bind read?

def withDefault (f : Fields) (name : String) (default : α) (read? : Document → Option α) :
    Option α :=
  match f.find? name with
  | none => some default
  | some d => read? d

def optional (f : Fields) (name : String) (read? : Document → Option α) : Option (Option α) :=
  f.withDefault name none (asOption? read?)

/-- A field that may be null, and may be left out where fields have names. -/
def nullable (f : Fields) (name : String) (read? : Document → Option α) : Option (Option α) :=
  match f.find? name with
  | none => if f.ordered then none else some none
  | some d => asOption? read? d

end Fields

def ofOption {α : Type} (write : α → Document) : Option α → Document
  | none => .null
  | some a => write a

def ofList {α : Type} (write : α → Document) (l : List α) : Document :=
  .sequence (l.map write)

def ofTexts (l : List String) : Document := ofList .text l

def ofCount (n : Nat) : Document := .integer n

end Segmentation.Document
