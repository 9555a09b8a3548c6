import Segmentation.Document
import Segmentation.Text.Hex

namespace Segmentation.Json

def isSpace (c : Char) : Bool := c = ' ' || c = '\t' || c = '\n' || c = '\r'

def skipSpace (cs : List Char) : List Char := cs.dropWhile isSpace

def digitValue (c : Char) : Nat := c.toNat - '0'.toNat

def ofDigits (ds : List Char) : Nat := ds.foldl (fun n c => 10 * n + digitValue c) 0

def hexUnit? : List Char → Option (Nat × List Char)
  | a :: b :: c :: d :: rest => do
    let n ← Text.ofDigits? 16 [a, b, c, d]
    some (n, rest)
  | _ => none

/-- The character of a `\u` escape; one beyond the first plane is written as two units. -/
def escaped? (cs : List Char) : Option (Char × List Char) := do
  let (n, rest) ← hexUnit? cs
  if 0xD800 ≤ n ∧ n < 0xDC00 then
    match rest with
    | '\\' :: 'u' :: more =>
      let (m, rest) ← hexUnit? more
      if 0xDC00 ≤ m ∧ m < 0xE000 then
        some (Char.ofNat (0x10000 + (n - 0xD800) * 0x400 + (m - 0xDC00)), rest)
      else none
    | _ => none
  else if 0xDC00 ≤ n ∧ n < 0xE000 then none
  else some (Char.ofNat n, rest)

def chars? : Nat → List Char → Option (List Char × List Char)
  | 0, _ => none
  | _ + 1, [] => none
  | _ + 1, '"' :: rest => some ([], rest)
  | fuel + 1, '\\' :: rest => do
    let (c, rest) ← match rest with
      | '"' :: r => some ('"', r)
      | '\\' :: r => some ('\\', r)
      | '/' :: r => some ('/', r)
      | 'b' :: r => some ('\x08', r)
      | 'f' :: r => some ('\x0c', r)
      | 'n' :: r => some ('\n', r)
      | 'r' :: r => some ('\r', r)
      | 't' :: r => some ('\t', r)
      | 'u' :: r => escaped? r
      | _ => none
    let (cs, rest) ← chars? fuel rest
    some (c :: cs, rest)
  | fuel + 1, c :: rest => do
    if c.toNat < 0x20 then none
    else
      let (cs, rest) ← chars? fuel rest
      some (c :: cs, rest)

def digits? (cs : List Char) : Option (List Char × List Char) :=
  match cs.takeWhile Char.isDigit with
  | [] => none
  | ds => some (ds, cs.dropWhile Char.isDigit)

def exponent? : List Char → Option (Bool × Int × List Char)
  | c :: rest =>
    if c = 'e' ∨ c = 'E' then
      match rest with
      | '+' :: more => (digits? more).map fun (ds, r) => (true, (ofDigits ds : Int), r)
      | '-' :: more => (digits? more).map fun (ds, r) => (true, -(ofDigits ds : Int), r)
      | more => (digits? more).map fun (ds, r) => (true, (ofDigits ds : Int), r)
    else some (false, 0, c :: rest)
  | [] => some (false, 0, [])

def isWord (negative : Bool) (n : Nat) : Bool :=
  if negative then 0 < n && n ≤ 1 <<< 63 else n < UInt64.size

/-- The digits of a number that a word of sixty-four bits takes, and the power of ten that the
others leave: further digits of the whole part count only as places, and those of the fraction not
at all. -/
def significand (whole fraction : List Char) : Nat × Int :=
  let full (n : Nat) (c : Char) : Bool := UInt64.size ≤ 10 * n + digitValue c
  let (n, left) := take full 0 whole
  let (m, rest) := take full n fraction
  (m, (left.length : Int) - (fraction.length - rest.length : Nat))
where
  take (full : Nat → Char → Bool) : Nat → List Char → Nat × List Char
    | n, [] => (n, [])
    | n, c :: rest => if full n c then (n, c :: rest) else take full (10 * n + digitValue c) rest

/-- A double times a power of ten, by one multiplication or by divisions; `none` for one that is too
great. -/
def scale? : Nat → Float → Int → Option Float
  | 0, x, _ => some x
  | fuel + 1, x, exponent =>
    if x == 0 then some x
    else if 308 < exponent then none
    else if 0 ≤ exponent then
      let y := x * Float.ofScientific 1 false exponent.natAbs
      if y.isFinite then some y else none
    else if -308 ≤ exponent then some (x / Float.ofScientific 1 false exponent.natAbs)
    else scale? fuel (x / 1e308) (exponent + 308)

/-- The double that a number is read as, which need not be the nearest: its significand is rounded
before it is scaled. -/
def double? (negative : Bool) (whole fraction : List Char) (exponent : Int) : Option Float := do
  let (n, power) := significand whole fraction
  let x ← scale? 4 n.toUInt64.toFloat (power + exponent)
  return if negative then -x else x

def number? (cs : List Char) : Option (Document × List Char) := do
  let (negative, cs) := match cs with
    | '-' :: rest => (true, rest)
    | rest => (false, rest)
  let (whole, rest) ← digits? cs
  if whole.head? = some '0' ∧ whole.length ≠ 1 then none
  else
    let (fraction, rest) ← match rest with
      | '.' :: more => digits? more
      | more => some ([], more)
    let (hasExponent, exponent, rest) ← exponent? rest
    let n := ofDigits whole
    if fraction = [] ∧ hasExponent = false ∧ isWord negative n then
      some (.integer (if negative then -(n : Int) else n), rest)
    else
      let x ← double? negative whole fraction exponent
      some (.decimal (Decimal.ofFloat x), rest)

mutual

/-- A value at the head of the text; `size` bounds the characters between two quotes, `fuel` the
values and entries. -/
def value? (size fuel : Nat) (cs : List Char) : Option (Document × List Char) :=
  match fuel with
  | 0 => none
  | fuel + 1 =>
    match skipSpace cs with
    | 'n' :: 'u' :: 'l' :: 'l' :: rest => some (.null, rest)
    | 't' :: 'r' :: 'u' :: 'e' :: rest => some (.bool true, rest)
    | 'f' :: 'a' :: 'l' :: 's' :: 'e' :: rest => some (.bool false, rest)
    | '"' :: rest => do
      let (s, rest) ← chars? size rest
      some (.text (String.ofList s), rest)
    | '[' :: rest =>
      match skipSpace rest with
      | ']' :: rest => some (.sequence [], rest)
      | rest => do
        let (items, rest) ← items? size fuel rest
        some (.sequence items, rest)
    | '\x7b' :: rest =>
      match skipSpace rest with
      | '\x7d' :: rest => some (.mapping [], rest)
      | rest => do
        let (entries, rest) ← entries? size fuel [] rest
        some (.mapping entries, rest)
    | cs => number? cs

def items? (size fuel : Nat) (cs : List Char) : Option (List Document × List Char) :=
  match fuel with
  | 0 => none
  | fuel + 1 => do
    let (d, rest) ← value? size fuel cs
    match skipSpace rest with
    | ',' :: rest =>
      let (ds, rest) ← items? size fuel rest
      some (d :: ds, rest)
    | ']' :: rest => some ([d], rest)
    | _ => none

def entries? (size fuel : Nat) (done : List (String × Document)) (cs : List Char) :
    Option (List (String × Document) × List Char) :=
  match fuel with
  | 0 => none
  | fuel + 1 =>
    match skipSpace cs with
    | '"' :: rest => do
      let (key, rest) ← chars? size rest
      match skipSpace rest with
      | ':' :: rest =>
        let (d, rest) ← value? size fuel rest
        let done := Document.setEntry (String.ofList key) d done
        match skipSpace rest with
        | ',' :: rest => entries? size fuel done rest
        | '\x7d' :: rest => some (done, rest)
        | _ => none
      | _ => none
    | _ => none

end

def nestingLimit : Nat := 127

/-- Of several fields with one name the last counts. -/
def read? (text : String) : Option Document := do
  let cs := text.toList
  let (d, rest) ← value? (cs.length + 1) (cs.length + 1) cs
  if skipSpace rest = [] ∧ d.depth ≤ nestingLimit then some d else none

end Segmentation.Json
