import Segmentation.Decimal
import Segmentation.Text.Hex

namespace Segmentation

inductive ScalarStyle where
  | plain
  | literal
  | folded
  | quoted
  deriving DecidableEq, Repr

structure Scalar where
  style : ScalarStyle
  tag : Option String := none
  text : String
  deriving DecidableEq, Repr

namespace Scalar

def standardTag (type : String) : String := "tag:yaml.org,2002:" ++ type

def nullWords : List String := ["~", "null", "Null", "NULL"]

def trueWords : List String := ["true", "True", "TRUE"]

def falseWords : List String := ["false", "False", "FALSE"]

def unsigned : List Char → List Char
  | '+' :: rest => rest
  | '-' :: rest => rest
  | cs => cs

/-- Digits after a zero are not a number but a code. -/
def isCode (cs : List Char) : Bool :=
  match unsigned cs with
  | '0' :: d :: rest => (d :: rest).all Char.isDigit
  | _ => false

def magnitude? : List Char → Option Nat
  | '0' :: 'x' :: ds => Text.ofDigits? 16 ds
  | '0' :: 'o' :: ds => Text.ofDigits? 8 ds
  | '0' :: 'b' :: ds => Text.ofDigits? 2 ds
  | ds => if isCode ds then none else Text.ofDigits? 10 ds

def wholeOf? (text : String) : Option Int :=
  match text.toList with
  | '-' :: cs => (magnitude? cs).map fun n => -(n : Int)
  | '+' :: cs => (magnitude? cs).map Int.ofNat
  | cs => (magnitude? cs).map Int.ofNat

def isMantissa (cs : List Char) : Bool :=
  let whole := cs.takeWhile Char.isDigit
  match cs.dropWhile Char.isDigit with
  | [] => whole ≠ []
  | '.' :: rest => rest.all Char.isDigit && (whole ≠ [] || rest ≠ [])
  | _ => false

def isExponentMark (c : Char) : Bool := c = 'e' || c = 'E'

def isDecimal (cs : List Char) : Bool :=
  let mantissa := (unsigned cs).takeWhile fun c => !isExponentMark c
  match (unsigned cs).dropWhile fun c => !isExponentMark c with
  | [] => isMantissa mantissa
  | _ :: exponent =>
    let digits := unsigned exponent
    isMantissa mantissa && digits ≠ [] && digits.all Char.isDigit

def decimalOf (cs : List Char) : Decimal :=
  let body := unsigned cs
  let mantissa := body.takeWhile fun c => !isExponentMark c
  let exponent := (body.dropWhile fun c => !isExponentMark c).drop 1
  let value (ds : List Char) : Nat := (Text.ofDigits? 10 ds).getD 0
  let power : Int := match exponent with
    | '-' :: ds => -(value ds : Int)
    | ds => value (unsigned ds)
  let fraction := (mantissa.dropWhile Char.isDigit).drop 1
  ⟨cs.head? = some '-', value (mantissa.filter Char.isDigit), power - fraction.length⟩

def realWords : List String :=
  [".inf", ".Inf", ".INF", "+.inf", "+.Inf", "+.INF", "-.inf", "-.Inf", "-.INF",
    ".nan", ".NaN", ".NAN"]

def isReal (text : String) : Bool :=
  text ∈ realWords ||
  (!isCode text.toList && isDecimal text.toList && (decimalOf text.toList).toFloat.isFinite)

/-- Whether the form of a scalar lets it be of a type: a plain scalar is of any that its text looks
like, a literal block of the one that its tag names. -/
def mayBe (s : Scalar) (type : String) : Bool :=
  s.style = .plain || (s.style = .literal && s.tag = some (standardTag type))

def bool? (s : Scalar) : Option Bool :=
  if !s.mayBe "bool" then none
  else if s.text ∈ trueWords then some true
  else if s.text ∈ falseWords then some false
  else none

def integer? (s : Scalar) : Option Int := if s.mayBe "int" then wholeOf? s.text else none

def natural? (s : Scalar) : Option Nat :=
  if s.text.toList.head? = some '-' then none else s.integer?.map Int.toNat

def isEmpty (s : Scalar) : Bool := s.style = .plain && s.text = ""

/-- Whether the scalar stands for no value. One that is tagged as null has to look like it, and one
with another tag is a value. -/
def isNull? (s : Scalar) : Option Bool :=
  if s.style ≠ .plain then some false
  else match s.tag with
    | none => some (s.text ∈ "" :: nullWords)
    | some t =>
      if t ≠ standardTag "null" then some false
      else if s.text ∈ nullWords then some true
      else none

/-- The name in a tag that the file itself gives a meaning to; one with a character that could not
be read is none. -/
def ownTag? (s : Scalar) : Option String :=
  match s.tag.map String.toList with
  | some ['!'] => some "!"
  | some ('!' :: name) => if '\ufffd' ∈ name then none else some (String.ofList name)
  | _ => none

/-- The word by which the scalar chooses one of several: its text, or a tag of its own in front of
nothing. -/
def choice? (s : Scalar) : Option String :=
  match s.ownTag? with
  | none => some s.text
  | some name => if s.style = .plain ∧ s.text ∈ "" :: nullWords then some name else none

end Scalar

end Segmentation
