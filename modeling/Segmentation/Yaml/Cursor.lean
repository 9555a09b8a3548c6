namespace Segmentation.Yaml

/-- Resources are read to the letter, settings with more freedom. -/
inductive Habit where
  | strict
  | lenient
  deriving DecidableEq, Repr

def isBlank (c : Char) : Bool := c = ' ' || c = '\t'

def isFlowMark (c : Char) : Bool := c ∈ [',', '[', ']', '\x7b', '\x7d']

def isNameChar (c : Char) : Bool := c.isAlphanum || c = '_' || c = '-'

def breakText (c : Char) : List Char :=
  if c = '\u2028' || c = '\u2029' then [c] else ['\n']

namespace Habit

variable (h : Habit)

def isBreak (c : Char) : Bool :=
  c = '\n' || c = '\r' ||
    (h = .strict && (c = '\u0085' || c = '\u2028' || c = '\u2029'))

def endsLine : List Char → Bool
  | [] => true
  | c :: _ => h.isBreak c

def endsWord : List Char → Bool
  | [] => true
  | c :: _ => isBlank c || h.isBreak c

def admits (c : Char) : Bool :=
  let n := c.toNat
  h = .lenient || n = 9 || n = 10 || n = 13 || (0x20 ≤ n && n ≤ 0x7E) || n = 0x85 ||
    (0xA0 ≤ n && n ≤ 0xFFFD) || 0x10000 ≤ n

/-- The characters of a text that are read: all of them if they may stand there, or those before
the first zero. -/
def characters? (text : String) : Option (List Char) :=
  let cs := text.toList
  let cs := if h = .lenient then cs.takeWhile (· ≠ '\x00') else cs
  if cs.all h.admits then some cs else none

end Habit

/-- A place, by how much stands before it, in characters and in bytes, and by line and column. -/
structure Place where
  index : Nat := 0
  bytes : Nat := 0
  line : Nat := 0
  column : Nat := 0
  deriving DecidableEq, Repr

structure Cursor extends Place where
  rest : List Char

namespace Cursor

def skip (n : Nat) (c : Cursor) : Cursor :=
  { rest := c.rest.drop n
    index := c.index + n
    bytes := (c.rest.take n).foldl (fun b ch => b + ch.utf8Size) c.bytes
    line := c.line
    column := c.column + n }

def skipWhile (p : Char → Bool) (c : Cursor) : Cursor :=
  c.skip (c.rest.takeWhile p).length

def startLine (n : Nat) (c : Cursor) : Cursor :=
  { c.skip n with line := c.line + 1, column := 0 }

/-- Past a line break. A carriage return alone does not begin a line for a lenient reader. -/
def skipBreak (h : Habit) (c : Cursor) : Cursor :=
  match c.rest with
  | '\r' :: '\n' :: _ => c.startLine 2
  | '\r' :: _ => if h = .lenient then c.skip 1 else c.startLine 1
  | b :: _ => if h.isBreak b then c.startLine 1 else c
  | [] => c

def atMarker (h : Habit) (c : Cursor) : Bool :=
  c.column = 0 && match c.rest with
    | '-' :: '-' :: '-' :: rest => h.endsWord rest
    | '.' :: '.' :: '.' :: rest => h.endsWord rest
    | _ => false

def skipBlanks (c : Cursor) : Cursor := c.skipWhile isBlank

def skipComment (h : Habit) (c : Cursor) : Cursor :=
  match c.rest with
  | '#' :: _ => c.skipWhile fun d => !h.isBreak d
  | _ => c

def finishLine? (h : Habit) (c : Cursor) : Option Cursor :=
  let c := (c.skipBlanks).skipComment h
  if h.endsLine c.rest then some (c.skipBreak h) else none

end Cursor

end Segmentation.Yaml
