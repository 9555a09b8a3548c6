import Segmentation.Text.Hex

namespace Segmentation

inductive Address where
  | v4 (bits : BitVec 32)
  | v6 (bits : BitVec 128)
  deriving DecidableEq

namespace Address

def before : Address → Address → Bool
  | .v4 a, .v4 b => a < b
  | .v4 _, .v6 _ => true
  | .v6 _, .v4 _ => false
  | .v6 a, .v6 b => a < b

def octet? (ds : List Char) : Option Nat :=
  if 3 < ds.length ∨ (ds.head? = some '0' ∧ ds.length ≠ 1) then none
  else do
    let n ← Text.ofDigits? 10 ds
    if n < 256 then some n else none

def split (mark : Char) : List Char → List (List Char)
  | [] => [[]]
  | c :: rest =>
    if c = mark then [] :: split mark rest
    else match split mark rest with
      | [] => [[c]]
      | part :: parts => (c :: part) :: parts

def v4Value? (cs : List Char) : Option Nat :=
  match split '.' cs with
  | [a, b, c, d] => do
    let a ← octet? a
    let b ← octet? b
    let c ← octet? c
    let d ← octet? d
    some (((a * 256 + b) * 256 + c) * 256 + d)
  | _ => none

def group? (ds : List Char) : Option Nat :=
  if 4 < ds.length then none else Text.ofDigits? 16 ds

/-- Groups between colons; the last two may be an address of version four. -/
def groups? : List (List Char) → Option (List Nat)
  | [] => some []
  | [part] =>
    if part.contains '.' then (v4Value? part).map fun n => [n / 65536, n % 65536]
    else (group? part).map fun n => [n]
  | part :: rest => do
    let n ← group? part
    let ns ← groups? rest
    some (n :: ns)

def side? (cs : List Char) : Option (List Nat) :=
  if cs = [] then some [] else groups? (split ':' cs)

def gap? : List Char → Option (List Char × List Char)
  | ':' :: ':' :: rest => some ([], rest)
  | c :: rest => (gap? rest).map fun (before, after) => (c :: before, after)
  | [] => none

def v6Value? (cs : List Char) : Option Nat := do
  let groups ← match gap? cs with
    | none => do
      let groups ← groups? (split ':' cs)
      if groups.length = 8 then some groups else none
    | some (before, after) => do
      if before.contains '.' then none
      else
        let left ← side? before
        let right ← side? after
        let missing := 8 - (left.length + right.length)
        if 0 < missing then some (left ++ List.replicate missing 0 ++ right) else none
  some (groups.foldl (fun n g => n * 65536 + g) 0)

def parse? (s : String) : Option Address :=
  match v4Value? s.toList with
  | some n => some (.v4 (BitVec.ofNat 32 n))
  | none => (v6Value? s.toList).map fun n => .v6 (BitVec.ofNat 128 n)

def v4Text (n : Nat) : List Char :=
  let part (i : Nat) : List Char := (Nat.repr (n >>> (8 * i) % 256)).toList
  part 3 ++ '.' :: part 2 ++ '.' :: part 1 ++ '.' :: part 0

def v6Groups (n : Nat) : List Nat :=
  (List.range 8).map fun i => n >>> (16 * (7 - i)) % 65536

def hexText (n : Nat) : List Char := Nat.toDigits 16 n

def joinGroups : List Nat → List Char
  | [] => []
  | [g] => hexText g
  | g :: rest => hexText g ++ ':' :: joinGroups rest

def leadingZeros (gs : List Nat) : Nat := (gs.takeWhile (· = 0)).length

/-- The place and length of the longest run of zeros, the first of several. -/
def longestZeros (gs : List Nat) : Nat × Nat :=
  (List.range gs.length).foldl (fun best i =>
    let size := leadingZeros (gs.drop i)
    if best.2 < size then (i, size) else best) (0, 0)

/-- Two zeros or more give way to a double colon; an address of version four mapped into version
six shows its dots. -/
def v6Text (n : Nat) : List Char :=
  let gs := v6Groups n
  if n >>> 32 = 0xffff then "::ffff:".toList ++ v4Text (n % UInt32.size)
  else
    let (start, size) := longestZeros gs
    if 1 < size then joinGroups (gs.take start) ++ ':' :: ':' :: joinGroups (gs.drop (start + size))
    else joinGroups gs

def text : Address → String
  | .v4 bits => String.ofList (v4Text bits.toNat)
  | .v6 bits => String.ofList (v6Text bits.toNat)

def width : Address → Nat
  | .v4 _ => 32
  | .v6 _ => 128

/-- The length of a prefix: a number below 256, with or without a plus sign in front. -/
def prefixLength? (cs : List Char) : Option Nat := do
  let n ← Text.ofDigits? 10 (match cs with | '+' :: rest => rest | rest => rest)
  if n < 256 then some n else none

/-- Whether a text is an address, or an address, a slash and the length of a prefix of it. -/
def isBlock (s : String) : Bool :=
  let cs := s.toList
  let address := cs.takeWhile (· ≠ '/')
  match parse? (String.ofList address), cs.dropWhile (· ≠ '/') with
  | some _, [] => true
  | some a, _ :: length =>
    match prefixLength? length with
    | some n => n ≤ a.width
    | none => false
  | none, _ => false

end Address

end Segmentation
