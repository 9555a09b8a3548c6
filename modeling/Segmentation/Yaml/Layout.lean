import Segmentation.Yaml.Mark

namespace Segmentation.Yaml

/-- A token that a colon behind it may make a key: its place, and how many tokens stand before it.
One that is `due` has to become a key. -/
structure Candidate where
  place : Place
  number : Nat
  due : Bool
  deriving DecidableEq

/-- A text that is read up to a place. -/
structure Layout where
  size : Nat
  cursor : Cursor
  tokens : Array Token := #[]
  /-- The first column of deeper content than that of the innermost block collection, and the same
  for the collections around it. -/
  floor : Nat := 0
  outerFloors : List Nat := []
  keyAllowed : Bool := true
  candidate : Option Candidate := none
  outerCandidates : List (Option Candidate) := []
  /-- The place behind the last quoted scalar, which a colon may touch. -/
  quotedEnd : Nat := 0

namespace Layout

variable (h : Habit)

def inFlow (l : Layout) : Bool := !l.outerCandidates.isEmpty

/-- How long a key is at most: a strict reader counts bytes, a lenient one characters. -/
def keyLimit : Nat := 1024

def isBehind (key c : Place) : Bool :=
  key.line < c.line ||
    if h = .strict then key.bytes + keyLimit < c.bytes else key.index + keyLimit < c.index

def skipGap : Nat → Layout → Layout
  | 0, l => l
  | fuel + 1, l =>
    let c := l.cursor
    match c.rest with
    | [] => l
    | ch :: _ =>
      if ch = ' ' || (ch = '\t' && (l.inFlow || !l.keyAllowed)) ||
          (h = .strict && ch = '\ufeff' && c.column = 0) then
        skipGap fuel { l with cursor := c.skip 1 }
      else if ch = '#' then skipGap fuel { l with cursor := c.skipComment h }
      else if h.isBreak ch then
        skipGap fuel { l with
          cursor := c.skipBreak h
          keyAllowed := l.keyAllowed || !l.inFlow }
      else l

def refresh? (c : Cursor) : Option Candidate → Option (Option Candidate)
  | none => some none
  | some k =>
    if !isBehind h k.place c.toPlace then some (some k)
    else if k.due then none
    else some none

def refreshAll? (l : Layout) : Option Layout := do
  return { l with
    candidate := ← refresh? h l.cursor l.candidate
    outerCandidates := ← l.outerCandidates.mapM (refresh? h l.cursor) }

def ended (column : Nat) : Nat → List Nat → Nat × Nat × List Nat
  | floor, outer :: rest =>
    if column < floor then
      let (n, floor, rest) := ended column outer rest
      (n + 1, floor, rest)
    else (0, floor, outer :: rest)
  | floor, [] => (0, floor, [])

def unindent (column : Nat) (l : Layout) : Layout :=
  if l.inFlow then l
  else
    let (n, floor, outerFloors) := ended column l.floor l.outerFloors
    { l with
      floor
      outerFloors
      tokens := l.tokens ++ Array.replicate n .blockEnd }

/-- The beginning of a block collection at a column, unless it is there already. Its token has so
many tokens before it. -/
def indent (column number : Nat) (t : Token) (l : Layout) : Layout :=
  if l.inFlow || column < l.floor then l
  else { l with
    floor := column + 1
    outerFloors := l.floor :: l.outerFloors
    tokens := l.tokens.insertIdxIfInBounds number t }

def drop? (l : Layout) : Option Layout :=
  if l.candidate.any (·.due) then none else some { l with candidate := none }

/-- The token that comes next becomes the candidate, where a key may stand. Content in the column of
a block mapping has to be a key; a lenient reader asks that of flow collections only. -/
def nominate? (l : Layout) : Option Layout := do
  if l.keyAllowed then
    let due := l.cursor.column + 1 = l.floor && (if h = .strict then !l.inFlow else l.inFlow)
    return { ← l.drop? with candidate := some ⟨l.cursor.toPlace, l.tokens.size, due⟩ }
  else return l

def allowKey (allowed : Bool) (l : Layout) : Layout := { l with keyAllowed := allowed }

def push (t : Token) (c : Cursor) (l : Layout) : Layout :=
  { l with tokens := l.tokens.push t, cursor := c }

def mark (t : Token) (size : Nat) (l : Layout) : Layout := l.push t (l.cursor.skip size)

def between? (t : Token) (c : Cursor) (l : Layout) : Option Layout := do
  return (← (l.unindent 0).drop?).allowKey false |>.push t c

def openFlow? (t : Token) (l : Layout) : Option Layout := do
  let l ← l.nominate? h
  if h = .lenient ∧ 255 ≤ l.outerCandidates.length then none
  else return { l with
    candidate := none
    outerCandidates := l.candidate :: l.outerCandidates }.allowKey true |>.mark t 1

def closeFlow? (t : Token) (l : Layout) : Option Layout := do
  let l ← l.drop?
  let l := match l.outerCandidates with
    | k :: rest => { l with candidate := k, outerCandidates := rest }
    | [] => l
  return l.allowKey false |>.mark t 1

def item? (l : Layout) : Option Layout := do
  if l.inFlow || !l.keyAllowed then none
  else
    let l := l.indent l.cursor.column l.tokens.size .blockSequence
    return (← l.drop?).allowKey true |>.mark .item 1

def key? (l : Layout) : Option Layout := do
  if !l.inFlow && !l.keyAllowed then none
  else
    let l := l.indent l.cursor.column l.tokens.size .blockMapping
    return (← l.drop?).allowKey (!l.inFlow) |>.mark .key 1

/-- A colon makes its candidate a key; without a candidate it belongs to a question mark. -/
def value? (l : Layout) : Option Layout :=
  match l.candidate with
  | some k =>
    let l := { l with tokens := l.tokens.insertIdxIfInBounds k.number .key, candidate := none }
    some (l.indent k.place.column k.number .blockMapping |>.allowKey false |>.mark .value 1)
  | none =>
    if !l.inFlow && !l.keyAllowed then none
    else
      let l := l.indent l.cursor.column l.tokens.size .blockMapping
      some (l.allowKey (!l.inFlow) |>.mark .value 1)

def marksKey (rest : List Char) (l : Layout) : Bool :=
  h.endsWord rest || (h = .strict && l.inFlow)

def marksValue (rest : List Char) (l : Layout) : Bool :=
  h.endsWord rest || (l.inFlow &&
    (h = .strict || rest.head?.any isFlowMark || l.cursor.index = l.quotedEnd))

def startsPlain (ch : Char) (rest : List Char) (l : Layout) : Bool :=
  if h = .lenient then ch ∉ ['%', '@', '\x60']
  else if ch = '-' then !rest.head?.any isBlank
  else if ch = '?' || ch = ':' then !l.inFlow && !h.endsWord rest
  else !h.endsWord [ch] && !isFlowMark ch &&
    ch ∉ ['#', '&', '*', '!', '|', '>', '\'', '"', '%', '@', '\x60']

def plainToken? (l : Layout) : Option Layout := do
  let l := (← l.nominate? h).allowKey false
  let c := l.cursor
  let (text, broken, c) ← plain? h l.inFlow l.floor l.size {} c
  return (if broken then l.allowKey true else l).push (.scalar .plain (String.ofList text)) c

def quotedToken? (double : Bool) (l : Layout) : Option Layout := do
  let l := (← l.nominate? h).allowKey false
  let c := l.cursor.skip 1
  let (text, c) ← quoted? h double l.size c
  return { l with quotedEnd := c.index }.push (.scalar .quoted (String.ofList text)) c

/-- A block scalar is no key; a lenient reader would let it be one. -/
def blockToken? (literal : Bool) (l : Layout) : Option Layout := do
  let l ← if h = .strict then l.drop? else l.nominate? h
  let (text, c) ← block? h literal l.floor l.size (l.cursor.skip 1)
  let style := if literal then ScalarStyle.literal else .folded
  return l.allowKey true |>.push (.scalar style (String.ofList text)) c

def namedToken? (make : String → Token) (l : Layout) : Option Layout := do
  let l := (← l.nominate? h).allowKey false
  let (s, c) ← anchorName? h (l.cursor.skip 1)
  return l.push (make s) c

def tagToken? (l : Layout) : Option Layout := do
  let l := (← l.nominate? h).allowKey false
  let (t, c) ← tag? h l.inFlow l.cursor
  return l.push (.tag t) c

def directiveToken? (l : Layout) : Option Layout := do
  let (t, c) ← directive? h (l.cursor.skip 1)
  l.between? t c

def next? (ch : Char) (rest : List Char) (l : Layout) : Option Layout :=
  let c := l.cursor
  if c.column = 0 ∧ ch = '%' then l.directiveToken? h
  else if c.atMarker h then
    l.between? (if ch = '-' then .documentStart else .documentEnd) (c.skip 3)
  else if ch = '[' then l.openFlow? h .flowSequence
  else if ch = '\x7b' then l.openFlow? h .flowMapping
  else if ch = ']' then l.closeFlow? .flowSequenceEnd
  else if ch = '\x7d' then l.closeFlow? .flowMappingEnd
  else if ch = ',' then do return (← l.drop?).allowKey true |>.mark .comma 1
  else if ch = '-' ∧ h.endsWord rest then l.item?
  else if ch = '?' ∧ l.marksKey h rest then l.key?
  else if ch = ':' ∧ l.marksValue h rest then l.value?
  else if ch = '*' then l.namedToken? h .alias
  else if ch = '&' then l.namedToken? h .anchor
  else if ch = '!' then l.tagToken? h
  else if ch = '|' ∧ !l.inFlow then l.blockToken? h true
  else if ch = '>' ∧ !l.inFlow then l.blockToken? h false
  else if ch = '\'' then l.quotedToken? h false
  else if ch = '"' then l.quotedToken? h true
  else if l.startsPlain h ch rest then l.plainToken? h
  else none

def finish? : Nat → Layout → Option (List Token)
  | 0, _ => none
  | fuel + 1, l => do
    let l ← (l.skipGap h l.size).refreshAll? h
    match l.cursor.rest with
    | [] => return (← (l.unindent 0).drop?).tokens.toList
    | ch :: rest =>
      finish? fuel (← (l.unindent (l.cursor.column + 1)).next? h ch rest)

end Layout

def tokens? (h : Habit) (text : String) : Option (List Token) := do
  let cs ← h.characters? text
  let size := cs.length + 1
  Layout.finish? h size { size, cursor := { rest := cs } }

end Segmentation.Yaml
