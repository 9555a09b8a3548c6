import Segmentation.Yaml.Node

namespace Segmentation.Yaml

inductive Shape where
  | leaf
  | list (item : Shape)
  | table (value : Shape)
  | record (fields : List (String × Shape))

namespace Shape

def leaves (names : List String) : List (String × Shape) := names.map fun n => (n, leaf)

def step? (target : Nat → Option (Node Nat)) (d : Node Nat) (left : Nat) :
    Option (Node Nat × Nat) :=
  match d with
  | .alias n => if left = 0 then none else (target n).map fun d => (d, left - 1)
  | d => some (d, left)

/-- The keys of a mapping are always read. -/
def keys? (target : Nat → Option (Node Nat)) :
    List (Node Nat × Node Nat) → Nat → Option (List (String × Node Nat) × Nat)
  | [], left => some ([], left)
  | (k, v) :: rest, left => do
    let (k, left) ← step? target k left
    let name := match k with
      | .scalar _ _ s => s
      | _ => ""
    let (entries, left) ← keys? target rest left
    some ((name, v) :: entries, left)

def each? (use? : Node Nat → Nat → Option Nat) : List (Node Nat) → Nat → Option Nat
  | [], left => some left
  | d :: rest, left => do each? use? rest (← use? d left)

mutual

/-- How many aliases may still be followed after a node has been read; `none` when they do not
suffice. -/
def follow? (target : Nat → Option (Node Nat)) : Shape → Node Nat → Nat → Option Nat
  | .leaf, d, left => do some (← step? target d left).2
  | .list item, d, left => do
    let (d, left) ← step? target d left
    match d with
    | .sequence _ items => each? (follow? target item) items left
    | _ => some left
  | .table value, d, left => do
    let (d, left) ← step? target d left
    match d with
    | .mapping _ entries => do
      let (entries, left) ← keys? target entries left
      each? (follow? target value) (entries.map Prod.snd) left
    | _ => some left
  | .record fields, d, left => do
    let (d, left) ← step? target d left
    match d with
    | .mapping _ entries => do
      let (entries, left) ← keys? target entries left
      followFields? target fields entries left
    | _ => some left

def followFields? (target : Nat → Option (Node Nat)) :
    List (String × Shape) → List (String × Node Nat) → Nat → Option Nat
  | [], _, left => some left
  | (name, s) :: rest, entries, left => do
    let values := (entries.filter fun e => e.1 = name).map Prod.snd
    followFields? target rest entries (← each? (follow? target s) values left)

end

end Shape

mutual

def Node.size : Node Nat → Nat
  | .sequence _ items => sizeOfNodes items + 2
  | .mapping _ entries => sizeOfPairs entries + 2
  | _ => 1

def sizeOfNodes : List (Node Nat) → Nat
  | [] => 0
  | d :: rest => d.size + sizeOfNodes rest

def sizeOfPairs : List (Node Nat × Node Nat) → Nat
  | [] => 0
  | (k, v) :: rest => k.size + v.size + sizeOfPairs rest

end

/-- How often an alias is followed at most, for each mark of the text: aliases within aliases can
make a short text stand for a document without end. -/
def repetitionLimit : Nat := 100

def Node.isReadable (target : Nat → Option (Node Nat)) (shape : Shape) (root : Node Nat) : Bool :=
  (shape.follow? target root (repetitionLimit * root.size)).isSome

end Segmentation.Yaml
