import Segmentation.Document.Scalar

namespace Segmentation

/-- A data file as a tree. Some files leave the type of a scalar to the reader. In some a sequence
may stand for a record, its items for the fields in order; a listing never does. -/
inductive Document where
  | null
  | bool (value : Bool)
  | integer (value : Int)
  | decimal (value : Decimal)
  | text (value : String)
  | scalar (value : Scalar)
  | sequence (items : List Document)
  | listing (items : List Document)
  | mapping (entries : List (String × Document))
  /-- A part that can be passed over but not read, as a mapping whose keys are no texts. -/
  | unfit
  deriving Inhabited

namespace Document

def setEntry (key : String) (value : Document) :
    List (String × Document) → List (String × Document)
  | [] => [(key, value)]
  | (k, v) :: rest =>
    if k = key then (key, value) :: rest else (k, v) :: setEntry key value rest

mutual

def depth : Document → Nat
  | .sequence items => depthOfItems items + 1
  | .listing items => depthOfItems items + 1
  | .mapping entries => depthOfEntries entries + 1
  | _ => 0

def depthOfItems : List Document → Nat
  | [] => 0
  | d :: rest => max d.depth (depthOfItems rest)

def depthOfEntries : List (String × Document) → Nat
  | [] => 0
  | (_, d) :: rest => max d.depth (depthOfEntries rest)

end

end Document

end Segmentation
