import Segmentation.Document
import Segmentation.Document.Scalar
import Segmentation.Intent
import Segmentation.Json.Reader

namespace Segmentation

/-- A value from a file or from the environment, which knows nothing but text: so a setting of one
type stands for one of another where that makes sense. -/
inductive Setting where
  | nothing
  | bool (value : Bool)
  | int (value : Int)
  | real (value : Float)
  | text (value : String)
  | table (entries : List (String × Setting))
  | array (items : List Setting)

namespace Setting

/-- A number of a file that is too great for a word is a real number. -/
def ofInteger (n : Int) : Setting :=
  if Int64.minValue.toInt ≤ n ∧ n ≤ Int64.maxValue.toInt then .int n
  else .real (Decimal.toFloat ⟨decide (n < 0), n.natAbs, 0⟩)

def wholeNumber? (s : String) : Option Nat :=
  match s.toList with
  | '+' :: ds => Text.ofDigits? 10 ds
  | ds => Text.ofDigits? 10 ds

def word? (base : Nat) (cs : List Char) : Option Int := do
  let n ← match cs with
    | '-' :: ds => (Text.ofDigits? base ds).map fun n => -(n : Int)
    | '+' :: ds => (Text.ofDigits? base ds).map Int.ofNat
    | ds => (Text.ofDigits? base ds).map Int.ofNat
  if Int64.minValue.toInt ≤ n ∧ n ≤ Int64.maxValue.toInt then some n else none

def beyond? (cs : List Char) : Option Float :=
  let word := lowerCase (String.ofList (Scalar.unsigned cs))
  let sign : Float := if cs.head? = some '-' then -1 else 1
  if word = "inf" ∨ word = "infinity" then some (sign / 0)
  else if word = "nan" then some (0 / 0)
  else none

def real? (cs : List Char) : Option Float :=
  if Scalar.isDecimal cs then some (Scalar.decimalOf cs).toFloat else beyond? cs

mutual

def ofDocument : Document → Setting
  | .null => .nothing
  | .bool b => .bool b
  | .integer n => ofInteger n
  | .decimal d => .real d.toFloat
  | .text s => .text s
  | .scalar s => .text s.text
  | .sequence items => .array (ofItems items)
  | .listing items => .array (ofItems items)
  | .mapping entries => .table (ofEntries entries [])
  | .unfit => .nothing

def ofItems : List Document → List Setting
  | [] => []
  | d :: rest => ofDocument d :: ofItems rest

def ofEntries : List (String × Document) → List (String × Setting) → List (String × Setting)
  | [], done => done
  | (k, d) :: rest, done =>
    ofEntries rest (done.filter (fun e => e.1 ≠ k) ++ [(k, ofDocument d)])

end

def entries : Setting → List (String × Setting)
  | .table es => es
  | _ => []

def get? (s : Setting) (key : String) : Option Setting := s.entries.lookup key

def set (s : Setting) (key : String) (value : Setting) : Setting :=
  .table (s.entries.filter (fun e => e.1 ≠ key) ++ [(key, value)])

mutual

/-- The setting in place of an older one: tables are joined, all else is replaced. -/
def laidOver : Setting → Option Setting → Setting
  | .table es, old => overAll es (old.getD (.table []))
  | s, _ => s

def overAll : List (String × Setting) → Setting → Setting
  | [], t => t
  | (k, s) :: rest, t => overAll rest (t.set k (s.laidOver (t.get? k)))

end

inductive Step where
  | child (key : String)
  | item (index : Nat) (fromEnd : Bool)
  deriving DecidableEq

def isKeyChar (c : Char) : Bool := c.isAlphanum || c = ' ' || c = '_' || c = '-'

def position? (cs : List Char) : Option (Step × List Char) := do
  let isSpace (c : Char) : Bool := c ∈ [' ', '\t', '\r', '\n']
  let cs := cs.dropWhile isSpace
  let fromEnd := cs.head? = some '-'
  let cs := if fromEnd then cs.drop 1 else cs
  let n ← Text.ofDigits? 10 (cs.takeWhile Char.isDigit)
  match (cs.dropWhile Char.isDigit).dropWhile isSpace with
  | ']' :: rest => if n < 1 <<< 63 then some (.item n fromEnd, rest) else none
  | _ => none

/-- Steps after the first key: keys behind points, positions between brackets. -/
def steps? : Nat → List Char → Option (List Step)
  | _, [] => some []
  | 0, _ => none
  | fuel + 1, '.' :: rest =>
    let key := rest.takeWhile isKeyChar
    if key = [] then none
    else (steps? fuel (rest.dropWhile isKeyChar)).map (.child (String.ofList key) :: ·)
  | fuel + 1, '[' :: rest => do
    let (step, rest) ← position? rest
    (steps? fuel rest).map (step :: ·)
  | _, _ => none

/-- A key that reads as a path leads into a table, any other names an entry. -/
def path (key : String) : String × List Step :=
  let cs := key.toList
  let first := cs.takeWhile isKeyChar
  match steps? cs.length (cs.dropWhile isKeyChar) with
  | some steps => if first = [] then (key, []) else (String.ofList first, steps)
  | none => (key, [])

def update (change : Setting → Setting) : List Step → Setting → Setting
  | [], s => change s
  | .child key :: rest, s => s.set key (update change rest ((s.get? key).getD .nothing))
  | .item n fromEnd :: rest, s =>
    let items := match s with
      | .array items => items
      | _ => []
    let i := if fromEnd then items.length - n else n
    let items := items ++ List.replicate (i + 1 - items.length) .nothing
    .array (items.modify i (update change rest))

def assign (root : Setting) (key : String) (value : Setting) : Setting :=
  match path key with
  | (first, []) => root.set first (value.laidOver (root.get? first))
  | (first, steps) =>
    let change (old : Setting) : Setting := match value with
      | .table es => overAll es (.table old.entries)
      | s => s
    root.set first (update change steps ((root.get? first).getD .nothing))

def realText (x : Float) : String :=
  if x.isNaN then "NaN"
  else if x.isInf then (if x < 0 then "-inf" else "inf")
  else String.ofList ((Decimal.ofFloat x).chars Decimal.inNames)

def asText? : Setting → Option String
  | .text s => some s
  | .bool b => some (toString b)
  | .int n => some (toString n)
  | .real x => some (realText x)
  | _ => none

/-- Yes counts one and no counts zero; a real number is rounded. -/
def asCount? : Setting → Option Nat
  | .int n => if 0 ≤ n then some n.toNat else none
  | .bool b => some (if b then 1 else 0)
  | .real x => some x.round.toUInt64.toNat
  | .text s =>
    let word := lowerCase s
    if word ∈ ["true", "on", "yes"] then some 1
    else if word ∈ ["false", "off", "no"] then some 0
    else do
      let n ← wholeNumber? s
      if n < UInt64.size then some n else none
  | _ => none

def asChoice? {α : Type} (choice? : String → Option α) : Setting → Option α
  | .text name => choice? name
  | .table [(name, _)] => choice? name
  | _ => none

/-- The fields of a record by name; in an array they stand in order. -/
def fields? (names : List String) : Setting → Option (String → Option Setting)
  | .table es => some fun n => es.lookup n
  | .array items => some fun n => (names.zip items).lookup n
  | _ => none

end Setting

end Segmentation
