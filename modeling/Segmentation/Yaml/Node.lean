import Segmentation.Yaml.Cursor
import Segmentation.Yaml.Token

namespace Segmentation.Yaml

structure Properties (ref : Type) where
  anchor : Option ref := none
  tag : Option Tag := none

/-- A node; `ref` is what names a node that is meant again. -/
inductive Node (ref : Type) where
  | missing (properties : Properties ref)
  | scalar (properties : Properties ref) (style : ScalarStyle) (text : String)
  | sequence (properties : Properties ref) (items : List (Node ref))
  | mapping (properties : Properties ref) (entries : List (Node ref × Node ref))
  | alias (target : ref)

abbrev Parsed := Option (Node String × List Token)

abbrev Handles := List (String × String)

/-- The tag as one text. A strict reader knows what each handle means. -/
def Tag.resolve? (h : Habit) (handles : Handles) (t : Tag) : Option Tag :=
  if h = .lenient ∨ t.handle = "" then some t
  else (handles.lookup t.handle).map fun start => ⟨"", start ++ t.suffix⟩

def properties? (h : Habit) (handles : Handles) :
    List Token → Option (Properties String × List Token)
  | .anchor a :: .tag t :: ts => do some (⟨some a, some (← t.resolve? h handles)⟩, ts)
  | .anchor a :: ts => some (⟨some a, none⟩, ts)
  | .tag t :: .anchor a :: ts => do some (⟨some a, some (← t.resolve? h handles)⟩, ts)
  | .tag t :: ts => do some (⟨none, some (← t.resolve? h handles)⟩, ts)
  | ts => some ({}, ts)

def comes (expected : List Token) (ts : List Token) : Bool := ts.head?.any (· ∈ expected)

section

variable (h : Habit) (handles : Handles)

mutual

/-- A node. In a block it may be a block collection; below a key dashes begin a sequence even
without an indentation of their own. -/
def node? (block below : Bool) : Nat → List Token → Parsed
  | 0, _ => none
  | fuel + 1, ts =>
    match ts with
    | .alias name :: ts => some (.alias name, ts)
    | ts => do
      let (p, ts) ← properties? h handles ts
      match ts with
      | .scalar style text :: ts => some (.scalar p style text, ts)
      | .flowSequence :: ts => do
        let (items, ts) ← flowItems? true fuel ts
        some (.sequence p items, ts)
      | .flowMapping :: ts => do
        let (entries, ts) ← flowEntries? true fuel ts
        some (.mapping p entries, ts)
      | ts =>
        if below && comes [.item] ts then do
          let (items, ts) ← bareItems? fuel ts
          some (.sequence p items, ts)
        else if block && comes [.blockSequence] ts then do
          let (items, ts) ← items? fuel ts.tail
          some (.sequence p items, ts)
        else if block && comes [.blockMapping] ts then do
          let (entries, ts) ← entries? fuel ts.tail
          some (.mapping p entries, ts)
        else if p.anchor.isSome || p.tag.isSome then some (.missing p, ts)
        else none

def nodeUnless? (ends : List Token) (block below : Bool) : Nat → List Token → Parsed
  | 0, _ => none
  | fuel + 1, ts => if comes ends ts then some (.missing {}, ts) else node? block below fuel ts

def valueUnless? (ends : List Token) (block : Bool) : Nat → List Token → Parsed
  | 0, _ => none
  | fuel + 1, ts =>
    if comes [.value] ts then nodeUnless? ends block block fuel ts.tail
    else some (.missing {}, ts)

def bareItems? : Nat → List Token → Option (List (Node String) × List Token)
  | 0, _ => none
  | fuel + 1, ts =>
    if comes [.item] ts then do
      let (d, ts) ← nodeUnless? [.item, .key, .value, .blockEnd] true false fuel ts.tail
      let (ds, ts) ← bareItems? fuel ts
      some (d :: ds, ts)
    else some ([], ts)

def items? : Nat → List Token → Option (List (Node String) × List Token)
  | 0, _ => none
  | fuel + 1, ts =>
    if comes [.blockEnd] ts then some ([], ts.tail)
    else if comes [.item] ts then do
      let (d, ts) ← nodeUnless? [.item, .blockEnd] true false fuel ts.tail
      let (ds, ts) ← items? fuel ts
      some (d :: ds, ts)
    else none

def entries? : Nat → List Token → Option (List (Node String × Node String) × List Token)
  | 0, _ => none
  | fuel + 1, ts =>
    let ends : List Token := [.key, .value, .blockEnd]
    if comes [.blockEnd] ts then some ([], ts.tail)
    else do
      let (k, ts) ←
        if comes [.key] ts then nodeUnless? ends true true fuel ts.tail
        else if h = .lenient && comes [.value] ts then some (.missing {}, ts)
        else none
      let (v, ts) ← valueUnless? ends true fuel ts
      let (es, ts) ← entries? fuel ts
      some ((k, v) :: es, ts)

/-- The items of a flow sequence and its end. An entry among them is a mapping of its own; where its
key is left out the next mark goes with it. -/
def flowItems? (first : Bool) : Nat → List Token → Option (List (Node String) × List Token)
  | 0, _ => none
  | fuel + 1, ts =>
    if comes [.flowSequenceEnd] ts then some ([], ts.tail)
    else if !first && !comes [.comma] ts then none
    else
      let ts := if first then ts else ts.tail
      if comes [.flowSequenceEnd] ts then some ([], ts.tail)
      else do
        let (d, ts) ←
          if comes [.key] ts then do
            let (k, ts) ←
              if comes [.value, .comma, .flowSequenceEnd] ts.tail then
                some (.missing {}, ts.tail.tail)
              else node? false false fuel ts.tail
            let (v, ts) ← valueUnless? [.comma, .flowSequenceEnd] false fuel ts
            some (.mapping {} [(k, v)], ts)
          else node? false false fuel ts
        let (ds, ts) ← flowItems? false fuel ts
        some (d :: ds, ts)

def flowEntries? (first : Bool) :
    Nat → List Token → Option (List (Node String × Node String) × List Token)
  | 0, _ => none
  | fuel + 1, ts =>
    if comes [.flowMappingEnd] ts then some ([], ts.tail)
    else if !first && !comes [.comma] ts then none
    else
      let ts := if first then ts else ts.tail
      if comes [.flowMappingEnd] ts then some ([], ts.tail)
      else do
        let (k, v, ts) ←
          if comes [.key] ts || (h = .lenient && comes [.value] ts) then do
            let (k, ts) ←
              if comes [.key] ts then
                nodeUnless? [.value, .comma, .flowMappingEnd] false false fuel ts.tail
              else some (.missing {}, ts)
            let (v, ts) ← valueUnless? [.comma, .flowMappingEnd] false fuel ts
            some (k, v, ts)
          else do
            let (k, ts) ← node? false false fuel ts
            some (k, .missing {}, ts)
        let (es, ts) ← flowEntries? false fuel ts
        some ((k, v) :: es, ts)

end

end

def knownHandles : Handles := [("!", "!"), ("!!", Scalar.standardTag "")]

/-- The directives of a document and the tokens behind them. A strict reader takes one version at
most, which it knows, and gives a handle one meaning only. -/
def directives? (h : Habit) (versioned : Bool) (handles : Handles) :
    List Token → Option (Handles × List Token)
  | .version major minor :: ts =>
    if h = .lenient || (!versioned && major = 1 && (minor = 1 || minor = 2)) then
      directives? h true handles ts
    else none
  | .handle name meaning :: ts =>
    if h = .strict && (handles.lookup name).isSome then none
    else directives? h versioned ((name, meaning) :: handles) ts
  | ts => some (handles ++ knownHandles, ts)

def opensDocument : Token → Bool
  | .version _ _ | .handle _ _ | .documentStart => true
  | _ => false

def endsDocument (t : Token) : Bool := t = .documentEnd || opensDocument t

def documents? (h : Habit) : Bool → Nat → List Token → Option (List (Node String))
  | _, 0, _ => none
  | first, fuel + 1, ts => do
    let ts := if first then ts else ts.dropWhile (· = .documentEnd)
    if ts = [] then some []
    else
      let size := 4 * ts.length + 4
      let (d, ts) ←
        if first && !ts.head?.any opensDocument then node? h knownHandles true false size ts
        else do
          let (handles, ts) ← directives? h false [] ts
          if comes [.documentStart] ts then
            if ts.tail.head?.all endsDocument then some (.missing {}, ts.tail)
            else node? h handles true false size ts.tail
          else none
      let ds ← documents? h false fuel (if comes [.documentEnd] ts then ts.tail else ts)
      some (d :: ds)

structure Names where
  numbers : List (String × Nat) := []
  given : Nat := 0

/-- A name for the next node. A lenient reader counts all names, a strict one only different ones.
-/
def Names.add (h : Habit) (name : String) (ns : Names) : Nat × Names :=
  let n := if h = .strict then ns.numbers.length else ns.given
  (n, ⟨(name, n) :: ns.numbers.filter (fun e => e.1 ≠ name), ns.given + 1⟩)

def Properties.number (h : Habit) (p : Properties String) (ns : Names) : Properties Nat × Names :=
  match p.anchor with
  | none => (⟨none, p.tag⟩, ns)
  | some name =>
    let (n, ns) := ns.add h name
    (⟨some n, p.tag⟩, ns)

mutual

/-- A node with numbers for names; a name has to be given before it is used. -/
def Node.number? (h : Habit) : Node String → Names → Option (Node Nat × Names)
  | .missing p, ns =>
    let (p, ns) := p.number h ns
    some (.missing p, ns)
  | .scalar p style text, ns =>
    let (p, ns) := p.number h ns
    some (.scalar p style text, ns)
  | .sequence p items, ns => do
    let (p, ns) := p.number h ns
    let (items, ns) ← numberItems? h items ns
    some (.sequence p items, ns)
  | .mapping p entries, ns => do
    let (p, ns) := p.number h ns
    let (entries, ns) ← numberEntries? h entries ns
    some (.mapping p entries, ns)
  | .alias name, ns => do some (.alias (← ns.numbers.lookup name), ns)

def numberItems? (h : Habit) : List (Node String) → Names → Option (List (Node Nat) × Names)
  | [], ns => some ([], ns)
  | d :: rest, ns => do
    let (d, ns) ← d.number? h ns
    let (ds, ns) ← numberItems? h rest ns
    some (d :: ds, ns)

def numberEntries? (h : Habit) :
    List (Node String × Node String) → Names → Option (List (Node Nat × Node Nat) × Names)
  | [], ns => some ([], ns)
  | (k, v) :: rest, ns => do
    let (k, ns) ← k.number? h ns
    let (v, ns) ← v.number? h ns
    let (es, ns) ← numberEntries? h rest ns
    some ((k, v) :: es, ns)

end

def nodes? (h : Habit) (ts : List Token) : Option (List (Node Nat)) := do
  (← documents? h true (ts.length + 1) ts).mapM fun d => (d.number? h {}).map Prod.fst

end Segmentation.Yaml
