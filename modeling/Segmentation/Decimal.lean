namespace Segmentation

/-- The number `digits · 10 ^ exponent`, or its opposite; zero has two signs. -/
structure Decimal where
  negative : Bool
  digits : Nat
  exponent : Int
  deriving DecidableEq, Repr

namespace Decimal

/-- The double nearest to a decimal. No double lies beyond `10 ^ 310` or, but for zero, within
`10 ^ -330`. -/
def toFloat (d : Decimal) : Float :=
  let point : Int := (Nat.repr d.digits).length + d.exponent
  let size :=
    if d.digits = 0 || point < -330 then 0
    else if 310 < point then 1 / 0
    else Float.ofScientific d.digits (d.exponent < 0) d.exponent.natAbs
  if d.negative then -size else size

/-- A positive double with a range of reals that are all nearest to it, in units of `2 ^ power`. -/
structure Nearest where
  low : Nat
  value : Nat
  high : Nat
  power : Int
  closed : Bool

/-- The range of a double ends half way to its neighbours, and the ends belong to it when its
significand is even. -/
def Nearest.ofFloat (x : Float) : Nearest :=
  let bits := x.toBits.toNat
  let biased := bits >>> 52 % 2048
  let fraction := bits % (1 <<< 52)
  let significand := if biased = 0 then fraction else (1 <<< 52) + fraction
  let closeBelow := decide (fraction = 0 ∧ 1 < biased)
  { low := 4 * significand - if closeBelow then 1 else 2
    value := 4 * significand
    high := 4 * significand + 2
    power := (max biased 1 : Nat) - 1077
    closed := significand % 2 = 0 }

def scaled (n : Nat) (power exponent : Int) : Nat × Nat :=
  (n <<< power.toNat * Nat.pow 10 (-exponent).toNat, 1 <<< (-power).toNat * Nat.pow 10 exponent.toNat)

def Nearest.onGrid? (r : Nearest) (exponent : Int) : Option Nat :=
  let (v, unit) := scaled r.value r.power exponent
  let (lo, _) := scaled r.low r.power exponent
  let (hi, _) := scaled r.high r.power exponent
  let inside (d : Nat) : Bool :=
    if r.closed then lo ≤ d * unit && d * unit ≤ hi else lo < d * unit && d * unit < hi
  let below := v / unit
  let above := below + 1
  let rest := v % unit
  if inside below && (!inside above || 2 * rest < unit || (2 * rest = unit && below % 2 = 0)) then
    some below
  else if inside above then some above
  else none

/-- Twenty digits at most lie before the grid on which every double has its own point. -/
def Nearest.shortest (r : Nearest) : Nat → Int → Nat × Int
  | 0, exponent => ((scaled r.value r.power exponent).1, exponent)
  | fuel + 1, exponent =>
    match r.onGrid? exponent with
    | some d => (d, exponent)
    | none => r.shortest fuel (exponent - 1)

def strip : Nat → Nat → Int → Nat × Int
  | 0, digits, exponent => (digits, exponent)
  | fuel + 1, digits, exponent =>
    if digits ≠ 0 ∧ digits % 10 = 0 then strip fuel (digits / 10) (exponent + 1)
    else (digits, exponent)

def ofFloat (x : Float) : Decimal :=
  let negative := decide (1 <<< 63 ≤ x.toBits.toNat)
  if x == 0 then ⟨negative, 0, 0⟩
  else
    let r := Nearest.ofFloat x
    let whole := (scaled r.value r.power (-330)).1 / (scaled r.value r.power (-330)).2
    let start : Int := (Nat.repr whole).length - 330
    let (digits, exponent) := r.shortest 20 start
    let (digits, exponent) := strip 20 digits exponent
    ⟨negative, digits, exponent⟩

/-- Where zeros give way to an exponent, and how a whole number ends. -/
structure Notation where
  leastPoint : Int
  greatestPoint : Int
  wholeEnd : List Char

def chars (n : Notation) (d : Decimal) : List Char :=
  let ds := (Nat.repr d.digits).toList
  let point : Int := if d.digits = 0 then 1 else ds.length + d.exponent
  let sign := if d.negative then ['-'] else []
  let zeros (k : Int) := List.replicate k.toNat '0'
  sign ++
    if point < n.leastPoint || n.greatestPoint < point then
      let exponent := 'e' :: (toString (point - 1)).toList
      match ds with
      | [c] => c :: exponent
      | c :: rest => c :: '.' :: rest ++ exponent
      | [] => []
    else if point ≤ 0 then '0' :: '.' :: zeros (-point) ++ ds
    else if point < ds.length then ds.take point.toNat ++ '.' :: ds.drop point.toNat
    else ds ++ zeros (point - ds.length) ++ n.wholeEnd

def inData : Notation where
  leastPoint := -4
  greatestPoint := 16
  wholeEnd := ['.', '0']

def inNames : Notation where
  leastPoint := -400
  greatestPoint := 400
  wholeEnd := []

end Decimal

end Segmentation
