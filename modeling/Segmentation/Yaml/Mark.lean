import Segmentation.Yaml.Scalar
import Segmentation.Yaml.Token

namespace Segmentation.Yaml

def nameAt (c : Cursor) : String × Cursor :=
  (String.ofList (c.rest.takeWhile isNameChar), c.skipWhile isNameChar)

def anchorName? (h : Habit) (c : Cursor) : Option (String × Cursor) :=
  let (s, next) := nameAt c
  let ends := h.endsWord next.rest ||
    next.rest.head?.any (· ∈ ['?', ':', ',', ']', '\x7d', '%', '@', '\x60'])
  if s ≠ "" && ends then some (s, next) else none

def isTagChar (brackets : Bool) (c : Char) : Bool :=
  isNameChar c ||
    c ∈ [';', '/', '?', ':', '@', '&', '=', '+', '$', '.', '%', '!', '~', '*', '\'', '(', ')'] ||
    (brackets && (c = ',' || c = '[' || c = ']'))

def byte? : List Char → Option (Nat × List Char)
  | '%' :: a :: b :: rest => (Text.ofDigits? 16 [a, b]).map fun n => (n, rest)
  | _ => none

def furtherBytes? : Nat → List Char → Option (List Nat × List Char)
  | 0, cs => some ([], cs)
  | n + 1, cs => do
    let (b, cs) ← byte? cs
    if b / 64 = 2 then
      let (bs, cs) ← furtherBytes? n cs
      some (b :: bs, cs)
    else none

def byteCount? (b : Nat) : Option Nat :=
  if b < 0x80 then some 1
  else if b / 32 = 6 then some 2
  else if b / 16 = 14 then some 3
  else if b / 8 = 30 then some 4
  else none

def encodedChar (bytes : List Nat) : Char :=
  let text := String.fromUTF8? (bytes.map Nat.toUInt8).toByteArray
  (text.bind fun s => s.toList.head?).getD '\ufffd'

/-- A character that is written by its bytes. A lenient reader takes the bytes for one number. -/
def bytesChar? (h : Habit) (cs : List Char) : Option (Char × List Char) := do
  let (b, cs) ← byte? cs
  let (bs, cs) ← furtherBytes? ((← byteCount? b) - 1) cs
  if h = .strict then some (encodedChar (b :: bs), cs)
  else some (← codePoint? (bs.foldl (fun n b => 256 * n + b) b), cs)

def tagText? (h : Habit) (brackets : Bool) : Nat → List Char → Option (List Char × List Char)
  | 0, cs => some ([], cs)
  | fuel + 1, cs =>
    match cs with
    | [] => some ([], [])
    | c :: rest =>
      if !isTagChar brackets c then some ([], cs)
      else do
        let (d, rest) ← if c = '%' then bytesChar? h cs else some (c, rest)
        let (ds, rest) ← tagText? h brackets fuel rest
        some (d :: ds, rest)

def tagTextAt? (h : Habit) (brackets : Bool) (c : Cursor) : Option (List Char × Cursor) := do
  let (text, rest) ← tagText? h (brackets || h = .lenient) c.rest.length c.rest
  some (text, c.skip (c.rest.length - rest.length))

/-- What a reader keeps of the text of a tag: a strict one nothing from a zero on. -/
def kept (h : Habit) (text : List Char) : List Char :=
  if h = .strict then text.takeWhile (· ≠ '\x00') else text

/-- A handle at a place: an exclamation mark, or a name between two of them. Without the second
mark it is only the beginning of a tag. -/
def handle? (c : Cursor) : Option (List Char × Cursor) :=
  match c.rest with
  | '!' :: _ =>
    let c := c.skip 1
    let letters := c.rest.takeWhile isNameChar
    let c := c.skip letters.length
    match c.rest with
    | '!' :: _ => some ('!' :: letters ++ ['!'], c.skip 1)
    | _ => some ('!' :: letters, c)
  | _ => none

def isFullHandle (cs : List Char) : Bool := 2 ≤ cs.length && cs.getLast? = some '!'

def tag? (h : Habit) (flow : Bool) (c : Cursor) : Option (Tag × Cursor) := do
  let (t, c) ← match c.rest with
    | '!' :: '<' :: _ => do
      let (text, c) ← tagTextAt? h true (c.skip 2)
      if text ≠ [] ∧ c.rest.head? = some '>' then
        some (Tag.mk "" (String.ofList (kept h text)), c.skip 1)
      else none
    | _ => do
      let (start, c) ← handle? c
      let (more, c) ← tagTextAt? h false c
      let text := kept h (start.drop 1 ++ more)
      if isFullHandle start then
        if more = [] then none
        else some (Tag.mk (String.ofList start) (String.ofList (kept h more)), c)
      else some (if text = [] then Tag.mk "" "!" else Tag.mk "!" (String.ofList text), c)
  if h.endsWord c.rest || (h = .strict && flow && c.rest.head? = some ',') then some (t, c) else none

def versionNumber? (c : Cursor) : Option (Nat × Cursor) := do
  let ds := c.rest.takeWhile Char.isDigit
  if ds.length ≤ 9 then some (← Text.ofDigits? 10 ds, c.skip ds.length) else none

def versionDirective? (c : Cursor) : Option (Token × Cursor) := do
  let (major, c) ← versionNumber? c.skipBlanks
  if c.rest.head? = some '.' then
    let (minor, c) ← versionNumber? (c.skip 1)
    some (.version major minor, c)
  else none

def handleDirective? (h : Habit) (c : Cursor) : Option (Token × Cursor) := do
  let (start, c) ← handle? c.skipBlanks
  let blank := c.rest.head?.any isBlank
  if (start = ['!'] || isFullHandle start) && (blank || h = .lenient) then
    let (text, c) ← tagTextAt? h true c.skipBlanks
    if text ≠ [] ∧ h.endsWord c.rest then
      some (.handle (String.ofList start) (String.ofList (kept h text)), c)
    else none
  else none

/-- A directive after its percent sign, with the rest of its line. A lenient reader takes one that
it does not know for a handle without a name. -/
def directive? (h : Habit) (c : Cursor) : Option (Token × Cursor) := do
  let (s, next) := nameAt c
  if s = "" || !h.endsWord next.rest then none
  else
    let (t, c) ←
      if s = "YAML" then versionDirective? next
      else if s = "TAG" then handleDirective? h next
      else if h = .lenient then
        some (Token.handle "" "", next.skipWhile fun ch => !h.isBreak ch)
      else none
    some (t, ← c.finishLine? h)

end Segmentation.Yaml
