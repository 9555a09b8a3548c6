import Segmentation.Text.Hex

namespace Segmentation.Sha256

structure Digest where
  a : UInt32
  b : UInt32
  c : UInt32
  d : UInt32
  e : UInt32
  f : UInt32
  g : UInt32
  h : UInt32
  deriving DecidableEq

def roundConstants : List UInt32 :=
  [0x428a2f98, 0x71374491, 0xb5c0fbcf, 0xe9b5dba5, 0x3956c25b, 0x59f111f1, 0x923f82a4, 0xab1c5ed5,
   0xd807aa98, 0x12835b01, 0x243185be, 0x550c7dc3, 0x72be5d74, 0x80deb1fe, 0x9bdc06a7, 0xc19bf174,
   0xe49b69c1, 0xefbe4786, 0x0fc19dc6, 0x240ca1cc, 0x2de92c6f, 0x4a7484aa, 0x5cb0a9dc, 0x76f988da,
   0x983e5152, 0xa831c66d, 0xb00327c8, 0xbf597fc7, 0xc6e00bf3, 0xd5a79147, 0x06ca6351, 0x14292967,
   0x27b70a85, 0x2e1b2138, 0x4d2c6dfc, 0x53380d13, 0x650a7354, 0x766a0abb, 0x81c2c92e, 0x92722c85,
   0xa2bfe8a1, 0xa81a664b, 0xc24b8b70, 0xc76c51a3, 0xd192e819, 0xd6990624, 0xf40e3585, 0x106aa070,
   0x19a4c116, 0x1e376c08, 0x2748774c, 0x34b0bcb5, 0x391c0cb3, 0x4ed8aa4a, 0x5b9cca4f, 0x682e6ff3,
   0x748f82ee, 0x78a5636f, 0x84c87814, 0x8cc70208, 0x90befffa, 0xa4506ceb, 0xbef9a3f7, 0xc67178f2]

def initial : Digest where
  a := 0x6a09e667
  b := 0xbb67ae85
  c := 0x3c6ef372
  d := 0xa54ff53a
  e := 0x510e527f
  f := 0x9b05688c
  g := 0x1f83d9ab
  h := 0x5be0cd19

def rotateRight (x n : UInt32) : UInt32 := (x >>> n) ||| (x <<< (32 - n))

/-- The bytes of a message, the mark of its end, zeros up to a whole number of blocks, its length
in bits. -/
def padded (message : List UInt8) : List UInt8 :=
  let size := message.length
  let zeros := (55 + 64 - size % 64) % 64
  let bits := 8 * size
  message ++ (0x80 : UInt8) :: List.replicate zeros 0 ++
    (List.range 8).map fun i => (bits >>> (8 * (7 - i))).toUInt8

def words : List UInt8 → List UInt32
  | p :: q :: r :: s :: rest =>
    (p.toUInt32 <<< 24 ||| q.toUInt32 <<< 16 ||| r.toUInt32 <<< 8 ||| s.toUInt32) :: words rest
  | _ => []

/-- The words of a block and `n` more, each made of four before it; `ws` holds the last ones first.
-/
def schedule : Nat → List UInt32 → List UInt32
  | 0, ws => ws.reverse
  | n + 1, ws =>
    let low := ws.getD 14 0
    let high := ws.getD 1 0
    let mixLow := rotateRight low 7 ^^^ rotateRight low 18 ^^^ (low >>> 3)
    let mixHigh := rotateRight high 17 ^^^ rotateRight high 19 ^^^ (high >>> 10)
    schedule n ((ws.getD 15 0 + mixLow + ws.getD 6 0 + mixHigh) :: ws)

def Digest.round (s : Digest) (constant word : UInt32) : Digest :=
  let mixE := rotateRight s.e 6 ^^^ rotateRight s.e 11 ^^^ rotateRight s.e 25
  let choice := (s.e &&& s.f) ^^^ (~~~s.e &&& s.g)
  let t := s.h + mixE + choice + constant + word
  let mixA := rotateRight s.a 2 ^^^ rotateRight s.a 13 ^^^ rotateRight s.a 22
  let majority := (s.a &&& s.b) ^^^ (s.a &&& s.c) ^^^ (s.b &&& s.c)
  { a := t + (mixA + majority), b := s.a, c := s.b, d := s.c,
    e := s.d + t, f := s.e, g := s.f, h := s.g }

def Digest.add (s t : Digest) : Digest where
  a := s.a + t.a
  b := s.b + t.b
  c := s.c + t.c
  d := s.d + t.d
  e := s.e + t.e
  f := s.f + t.f
  g := s.g + t.g
  h := s.h + t.h

def Digest.absorb (s : Digest) (block : List UInt32) : Digest :=
  ((roundConstants.zip (schedule 48 block.reverse)).foldl (fun t (k, w) => t.round k w) s).add s

def blocks : Nat → List UInt32 → List (List UInt32)
  | 0, _ => []
  | count + 1, ws => ws.take 16 :: blocks count (ws.drop 16)

def digest (message : List UInt8) : Digest :=
  let ws := words (padded message)
  (blocks (ws.length / 16) ws).foldl Digest.absorb initial

def wordHex (w : UInt32) : List Char :=
  (List.range 8).map fun i => Text.hexDigit (w.toNat >>> (4 * (7 - i)) % 16)

def Digest.hex (s : Digest) : List Char :=
  [s.a, s.b, s.c, s.d, s.e, s.f, s.g, s.h].flatMap wordHex

def hash (text : String) : String :=
  String.ofList (digest text.toUTF8.data.toList).hex

/-- The first `length` digits of the hash, all of them when there are not so many. -/
def short (text : String) (length : Nat) : String :=
  String.ofList ((digest text.toUTF8.data.toList).hex.take length)

end Segmentation.Sha256
