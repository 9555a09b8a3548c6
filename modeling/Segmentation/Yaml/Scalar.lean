import Segmentation.Text.Hex
import Segmentation.Yaml.Cursor

namespace Segmentation.Yaml

structure Gap where
  blanks : List Char := []
  broken : Bool := false
  /-- The first line break, unless it was escaped. -/
  first : List Char := []
  further : List Char := []

def Gap.text (g : Gap) : List Char :=
  if !g.broken then g.blanks
  else if g.first.head? ≠ some '\n' then g.first ++ g.further
  else if g.further = [] then [' ']
  else g.further

/-- A gap and the place behind it. Tabs do not indent a line up to the column `floor`. -/
def gap? (h : Habit) (floor : Nat) : Nat → Gap → Cursor → Option (Gap × Cursor)
  | 0, g, c => some (g, c)
  | fuel + 1, g, c =>
    match c.rest with
    | [] => some (g, c)
    | ch :: _ =>
      if isBlank ch then
        if !g.broken then gap? h floor fuel { g with blanks := g.blanks ++ [ch] } (c.skip 1)
        else if ch = '\t' && c.column < floor then none
        else gap? h floor fuel g (c.skip 1)
      else if h.isBreak ch then
        let g :=
          if g.broken then { g with further := g.further ++ breakText ch }
          else { g with broken := true, first := breakText ch }
        gap? h floor fuel g (c.skipBreak h)
      else some (g, c)

/-- The word of a plain scalar at the head of the text. A colon ends it where a blank follows;
between brackets commas and brackets end it too, and a colon has none of them behind it. -/
def word? (h : Habit) (flow : Bool) : List Char → Option (List Char)
  | [] => some []
  | c :: rest =>
    let touches := flow && rest.head?.any isFlowMark
    if isBlank c || h.isBreak c || (flow && isFlowMark c) then some []
    else if c = ':' && h = .strict && (touches || (flow && rest.head? = some '?')) then none
    else if c = ':' && (h.endsWord rest || touches) then some []
    else (word? h flow rest).map (c :: ·)

def plain? (h : Habit) (flow : Bool) (floor : Nat) :
    Nat → Gap → Cursor → Option (List Char × Bool × Cursor)
  | 0, _, _ => none
  | fuel + 1, g, c =>
    if c.atMarker h || c.rest.head? = some '#' then some ([], g.broken, c)
    else do
      let word ← word? h flow c.rest
      let text := if word = [] then [] else g.text ++ word
      let g := if word = [] then g else {}
      let c := c.skip word.length
      if c.rest = [] || !h.endsWord c.rest then some (text, g.broken, c)
      else
        let (g, c) ← gap? h floor fuel g c
        if !flow && c.column < floor then some (text, g.broken, c)
        else
          let (more, broken, c) ← plain? h flow floor fuel g c
          some (text ++ more, broken, c)

def commonEscapes : List (Char × Char) :=
  [('0', '\x00'), ('a', '\x07'), ('b', '\x08'), ('t', '\t'), ('\t', '\t'), ('n', '\n'),
    ('v', '\x0b'), ('f', '\x0c'), ('r', '\r'), ('e', '\x1b'), (' ', ' '), ('"', '"'),
    ('\\', '\\'), ('N', '\u0085'), ('_', '\u00a0'), ('L', '\u2028'), ('P', '\u2029')]

def Habit.escapes (h : Habit) : List (Char × Char) :=
  (if h = .strict then ('/', '/') else ('\'', '\'')) :: commonEscapes

def codePoint? (n : Nat) : Option Char :=
  if h : n.isValidChar then some (Char.ofNatAux n h) else none

def escape? (h : Habit) : List Char → Option (Char × Nat)
  | [] => none
  | c :: rest =>
    let coded (size : Nat) : Option (Char × Nat) := do
      let ds := rest.take size
      if ds.length < size then none
      else
        let ch ← codePoint? (← Text.ofDigits? 16 ds)
        some (ch, size + 1)
    if c = 'x' then coded 2
    else if c = 'u' then coded 4
    else if c = 'U' then coded 8
    else (h.escapes.lookup c).map fun d => (d, 1)

def quotedRun? (h : Habit) (double : Bool) : Nat → Cursor → Option (List Char × Bool × Cursor)
  | 0, _ => none
  | fuel + 1, c =>
    let goOn (ch : Char) (c : Cursor) : Option (List Char × Bool × Cursor) := do
      let (text, escaped, c) ← quotedRun? h double fuel c
      some (ch :: text, escaped, c)
    match c.rest with
    | [] => some ([], false, c)
    | ch :: rest =>
      if h.endsWord c.rest || (double && ch = '"') then some ([], false, c)
      else if !double && ch = '\'' then
        if rest.head? = some '\'' then goOn '\'' (c.skip 2) else some ([], false, c)
      else if double && ch = '\\' then
        if rest.head?.any h.isBreak then some ([], true, (c.skip 1).skipBreak h)
        else do
          let (d, size) ← escape? h rest
          goOn d (c.skip (size + 1))
      else goOn ch (c.skip 1)

def quoted? (h : Habit) (double : Bool) : Nat → Cursor → Option (List Char × Cursor)
  | 0, _ => none
  | fuel + 1, c =>
    if c.atMarker h || c.rest = [] then none
    else do
      let (text, escaped, c) ← quotedRun? h double (fuel + 1) c
      if c.rest.head? = some (if double then '"' else '\'') then some (text, c.skip 1)
      else
        let (g, c) ← gap? h 0 fuel { broken := escaped } c
        let (more, c) ← quoted? h double fuel c
        some (text ++ g.text ++ more, c)

inductive Chomping where
  | strip
  | clip
  | keep
  deriving DecidableEq

def chomping? : Char → Option Chomping
  | '+' => some .keep
  | '-' => some .strip
  | _ => none

def indentation? (c : Char) : Option Nat :=
  if '1' ≤ c ∧ c ≤ '9' then some (c.toNat - '0'.toNat) else none

def blockHeader : List Char → Option Nat × Chomping × Nat
  | a :: rest =>
    let b := rest.head?
    match chomping? a, indentation? a with
    | some ch, _ =>
      match b.bind indentation? with
      | some n => (some n, ch, 2)
      | none => (none, ch, 1)
    | none, some n =>
      match b.bind chomping? with
      | some ch => (some n, ch, 2)
      | none => (some n, .clip, 1)
    | none, none => (none, .clip, 0)
  | [] => (none, .clip, 0)

/-- The empty lines before a line of a block: their breaks, the greatest indentation among them and
the place where the line begins. Tabs do not indent; while the indentation of the block is not known
all blanks do. -/
def emptyLines? (h : Habit) (indent : Option Nat) :
    Nat → List Char → Nat → Cursor → Option (List Char × Nat × Cursor)
  | 0, _, _, _ => none
  | fuel + 1, breaks, greatest, c =>
    let blanks := (c.rest.takeWhile (· = ' ')).length
    let c := c.skip (match indent with
      | none => blanks
      | some n => min blanks (n - c.column))
    let greatest := max greatest c.column
    match c.rest with
    | [] => some (breaks, greatest, c)
    | ch :: _ =>
      if ch = '\t' && indent.all (c.column < ·) then none
      else if h.isBreak ch then
        emptyLines? h indent fuel (breaks ++ breakText ch) greatest (c.skipBreak h)
      else some (breaks, greatest, c)

/-- The lines of a block: their text, the break behind the last of them, and the breaks of the empty
lines after that. `first` and `further` are those before the next line, and `afterBlank` tells
whether the line before began with a blank. -/
def blockLines? (h : Habit) (literal : Bool) (indent : Nat) :
    Nat → Bool → List Char → List Char → Cursor →
      Option (List Char × List Char × List Char × Cursor)
  | 0, _, _, _, _ => none
  | fuel + 1, afterBlank, first, further, c =>
    if c.column ≠ indent || c.rest = [] then some ([], first, further, c)
    else do
      let blank := c.rest.head?.any isBlank
      let folds := !literal && first.head? = some '\n' && !afterBlank && !blank
      let joint := if !folds then first else if further = [] then [' '] else []
      let line := c.rest.takeWhile fun ch => !h.isBreak ch
      let c := c.skip line.length
      let next := match c.rest with
        | [] => []
        | ch :: _ => breakText ch
      let c := c.skipBreak h
      let (breaks, _, c) ← emptyLines? h (some indent) fuel [] 0 c
      let (more, last) ← blockLines? h literal indent fuel blank next breaks c
      some (joint ++ further ++ line ++ more, last)

def block? (h : Habit) (literal : Bool) (floor fuel : Nat) (c : Cursor) :
    Option (List Char × Cursor) := do
  let (given, chomping, size) := blockHeader c.rest
  let c ← (c.skip size).finishLine? h
  let indent := given.map (floor - 1 + ·)
  let (breaks, greatest, c) ← emptyLines? h indent fuel [] 0 c
  let indent := indent.getD (max (max greatest floor) 1)
  let (text, first, further, c) ← blockLines? h literal indent fuel false [] breaks c
  let tail := match chomping with
    | .strip => []
    | .clip => first
    | .keep => first ++ further
  some (text ++ tail, c)

end Segmentation.Yaml
