import Segmentation.Document
import Segmentation.Yaml.Layout
import Segmentation.Yaml.Shape

namespace Segmentation.Yaml

namespace Node

mutual

def named : Node Nat → List (Nat × Node Nat)
  | .missing p => own p (.missing p)
  | .scalar p style text => own p (.scalar p style text)
  | .sequence p items => own p (.sequence p items) ++ namedItems items
  | .mapping p entries => own p (.mapping p entries) ++ namedEntries entries
  | .alias _ => []
where
  own (p : Properties Nat) (d : Node Nat) : List (Nat × Node Nat) :=
    (p.anchor.map fun n => (n, d)).toList

def namedItems : List (Node Nat) → List (Nat × Node Nat)
  | [] => []
  | d :: rest => d.named ++ namedItems rest

def namedEntries : List (Node Nat × Node Nat) → List (Nat × Node Nat)
  | [] => []
  | (k, v) :: rest => k.named ++ v.named ++ namedEntries rest

end

def mappingOf (entries : List (Document × Document)) : Document :=
  let keyed := entries.mapM fun (k, v) => match k with
    | .scalar s => some (s.text, v)
    | _ => none
  (keyed.map Document.mapping).getD .unfit

mutual

def document (target : Nat → Document) : Node Nat → Document
  | .missing p => .scalar ⟨.plain, p.tag.map (·.suffix), ""⟩
  | .scalar p style text => .scalar ⟨style, p.tag.map (·.suffix), text⟩
  | .sequence _ items => .listing (documents target items)
  | .mapping _ entries => mappingOf (documentPairs target entries)
  | .alias n => target n

def documents (target : Nat → Document) : List (Node Nat) → List Document
  | [] => []
  | d :: rest => d.document target :: documents target rest

def documentPairs (target : Nat → Document) :
    List (Node Nat × Node Nat) → List (Document × Document)
  | [] => []
  | (k, v) :: rest => (k.document target, v.document target) :: documentPairs target rest

end

/-- The node with a number. Of several nodes with one number the last counts. -/
def target? (names : List (Nat × Node Nat)) (n : Nat) : Option (Node Nat) :=
  names.reverse.lookup n

/-- The documents of the named nodes, as far as a reader goes down so many levels. What lies deeper
need not be known, so a node can be part of itself. -/
def targets (names : List (Nat × Node Nat)) : Nat → List (Nat × Document)
  | 0 => []
  | depth + 1 =>
    let inner := targets names depth
    (names.map fun (n, d) => (n, d.document fun m => (inner.lookup m).getD .unfit)).reverse

end Node

def Shape.depth : Shape → Nat
  | .leaf => 1
  | .list item => item.depth + 1
  | .table value => value.depth + 1
  | .record fields => depthOfFields fields + 1
where
  depthOfFields : List (String × Shape) → Nat
    | [] => 0
    | (_, s) :: rest => max s.depth (depthOfFields rest)

/-- The one document that a YAML text holds, to be read in a shape; an empty text holds an empty
scalar. -/
def read? (shape : Shape) (text : String) : Option Document := do
  match ← nodes? .strict (← tokens? .strict text) with
  | [] => some (.scalar ⟨.plain, none, ""⟩)
  | [root] =>
    let names := root.named
    if root.isReadable (Node.target? names) shape then
      let targets := Node.targets names shape.depth
      some (root.document fun n => (targets.lookup n).getD .unfit)
    else none
  | _ => none

end Segmentation.Yaml
