import Segmentation.Document
import Segmentation.Text.Hex

namespace Segmentation.Json

def escape (c : Char) : List Char :=
  if c = '"' then ['\\', '"']
  else if c = '\\' then ['\\', '\\']
  else if c = '\n' then ['\\', 'n']
  else if c = '\r' then ['\\', 'r']
  else if c = '\t' then ['\\', 't']
  else if c = '\x08' then ['\\', 'b']
  else if c = '\x0c' then ['\\', 'f']
  else if c.toNat < 0x20 then
    ['\\', 'u', '0', '0', Text.hexDigit (c.toNat / 16), Text.hexDigit (c.toNat % 16)]
  else [c]

def quote (text : String) : List Char := '"' :: text.toList.flatMap escape ++ ['"']

mutual

/-- The text of a document; a scalar of open type is written as text. -/
def write : Document → List Char
  | .null => ['n', 'u', 'l', 'l']
  | .bool true => ['t', 'r', 'u', 'e']
  | .bool false => ['f', 'a', 'l', 's', 'e']
  | .integer n => (toString n).toList
  | .decimal d => (Decimal.ofFloat d.toFloat).chars Decimal.inData
  | .text s => quote s
  | .scalar s => quote s.text
  | .unfit => ['n', 'u', 'l', 'l']
  | .sequence items => '[' :: writeItems items
  | .listing items => '[' :: writeItems items
  | .mapping entries => '\x7b' :: writeEntries entries

def writeItems : List Document → List Char
  | [] => [']']
  | [d] => write d ++ [']']
  | d :: e :: rest => write d ++ ',' :: writeItems (e :: rest)

def writeEntries : List (String × Document) → List Char
  | [] => ['\x7d']
  | [(k, d)] => quote k ++ ':' :: write d ++ ['\x7d']
  | (k, d) :: e :: rest => quote k ++ ':' :: write d ++ ',' :: writeEntries (e :: rest)

end

def render (d : Document) : String := String.ofList (write d)

def lineStart (depth : Nat) : List Char := '\n' :: List.replicate (2 * depth) ' '

mutual

def writeIndented (depth : Nat) : Document → List Char
  | .sequence (d :: rest) =>
    '[' :: lineStart (depth + 1) ++ writeIndented (depth + 1) d ++ indentedItems depth rest
  | .mapping ((k, d) :: rest) =>
    '\x7b' :: lineStart (depth + 1) ++ quote k ++ ':' :: ' ' :: writeIndented (depth + 1) d ++
      indentedEntries depth rest
  | d => write d

def indentedItems (depth : Nat) : List Document → List Char
  | [] => lineStart depth ++ [']']
  | d :: rest =>
    ',' :: lineStart (depth + 1) ++ writeIndented (depth + 1) d ++ indentedItems depth rest

def indentedEntries (depth : Nat) : List (String × Document) → List Char
  | [] => lineStart depth ++ ['\x7d']
  | (k, d) :: rest =>
    ',' :: lineStart (depth + 1) ++ quote k ++ ':' :: ' ' :: writeIndented (depth + 1) d ++
      indentedEntries depth rest

end

def renderIndented (d : Document) : String := String.ofList (writeIndented 0 d)

end Segmentation.Json
