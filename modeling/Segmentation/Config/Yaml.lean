import Segmentation.Config.Setting
import Segmentation.Yaml.Layout
import Segmentation.Yaml.Node

namespace Segmentation

open Yaml

inductive Reading where
  /-- A value; `none` is a number that settings do not take. -/
  | value (setting : Option Setting)
  /-- What does not look as its tag says, or a name that is used inside of its own node. -/
  | failed

namespace Reading

def ofText (s : String) : Reading := .value (some (.text s))

def pointed : List String :=
  [".inf", ".Inf", ".INF", "+.inf", "+.Inf", "+.INF", "-.inf", "-.Inf", "-.INF", ".nan", ".NAN"]

def real? (s : String) : Option Reading :=
  if s ∈ pointed then some (.value none)
  else (Setting.real? s.toList).map fun x => .value (some (.real x))

/-- A whole number in a base that a mark in front gives; the sign comes after it. -/
def based? (cs : List Char) : Option Int :=
  match cs with
  | '0' :: 'x' :: ds => Setting.word? 16 ds
  | '0' :: 'o' :: ds => Setting.word? 8 ds
  | '+' :: ds => Setting.word? 10 ds
  | _ => none

def ofPlain (s : String) : Reading :=
  let number : Option Reading :=
    ((based? s.toList).or (Setting.word? 10 s.toList)).map fun n => .value (some (.int n))
  if s = "~" ∨ s = "null" then .value (some .nothing)
  else if s = "true" then .value (some (.bool true))
  else if s = "false" then .value (some (.bool false))
  else (number.or (real? s)).getD (ofText s)

def ofTyped (type s : String) : Reading :=
  if type = "bool" then
    if s = "true" then .value (some (.bool true))
    else if s = "false" then .value (some (.bool false))
    else .failed
  else if type = "int" then
    ((Setting.word? 10 s.toList).map fun n => Reading.value (some (.int n))).getD .failed
  else if type = "float" then (real? s).getD .failed
  else if type = "null" then
    if s = "~" ∨ s = "null" then .value (some .nothing) else .failed
  else ofText s

def ofScalar (tag : Option Yaml.Tag) (style : ScalarStyle) (s : String) : Reading :=
  if style ≠ .plain then ofText s
  else match tag with
    | none => ofPlain s
    | some t => if t.handle = "!!" then ofTyped t.suffix s else ofText s

def setting? : Reading → Option Setting
  | .value s => s
  | .failed => some .nothing

/-- The entries of a mapping from its keys and values in turn. A key that failed is none: the next
node takes its place. The last entry with a key counts, and keys that are no texts are passed
over. -/
def entriesOf : Option Reading → List (String × Option Setting) → List Reading →
    List (String × Option Setting)
  | _, es, [] => es
  | none, es, .failed :: rest => entriesOf none es rest
  | none, es, k :: rest => entriesOf (some k) es rest
  | some (.value (some (.text k))), es, v :: rest =>
    entriesOf none (es.filter (fun e => e.1 ≠ k) ++ [(k, v.setting?)]) rest
  | some _, es, _ :: rest => entriesOf none es rest

def ofMapping (rs : List Reading) : Reading :=
  let entries := (entriesOf none [] rs).mapM fun (k, s) => s.map fun s => (k, s)
  .value (entries.map Setting.table)

def ofSequence (rs : List Reading) : Reading := .value ((rs.mapM setting?).map Setting.array)

end Reading

abbrev Known := List (Nat × Reading)

def Known.add (p : Properties Nat) (r : Reading) (known : Known) : Reading × Known :=
  (r, (p.anchor.map fun n => (n, r)).toList ++ known)

namespace Yaml.Node

mutual

def reading : Node Nat → Known → Reading × Known
  | .missing p, known =>
    known.add p (if p.anchor.isNone ∧ p.tag.isNone then .value (some .nothing)
      else Reading.ofScalar p.tag .plain "")
  | .scalar p style text, known => known.add p (Reading.ofScalar p.tag style text)
  | .sequence p items, known =>
    let (rs, known) := readings items known
    known.add p (Reading.ofSequence rs)
  | .mapping p entries, known =>
    let (rs, known) := readingPairs entries known
    known.add p (Reading.ofMapping rs)
  | .alias n, known => ((known.lookup n).getD .failed, known)

def readings : List (Node Nat) → Known → List Reading × Known
  | [], known => ([], known)
  | d :: rest, known =>
    let (r, known) := d.reading known
    let (rs, known) := readings rest known
    (r :: rs, known)

def readingPairs : List (Node Nat × Node Nat) → Known → List Reading × Known
  | [], known => ([], known)
  | (k, v) :: rest, known =>
    let (rk, known) := k.reading known
    let (rv, known) := v.reading known
    let (rs, known) := readingPairs rest known
    (rk :: rv :: rs, known)

end

end Yaml.Node

def Setting.ofYaml? (text : String) : Option Setting := do
  match ← nodes? .lenient (← tokens? .lenient text) with
  | [] => some .nothing
  | [root] => (root.reading []).1.setting?
  | _ => none

end Segmentation
