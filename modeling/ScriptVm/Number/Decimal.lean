import ScriptVm.Number.Binary64

/-! Decimal text of reals. `fixed` writes a given number of places of the exact value, a half going to
the even digit. `shortest` finds the fewest decimal digits that lie closer to a real than to any other
of its format, and of those the nearest; `positional` and `scientific` lay such digits out. -/

namespace ScriptVm.Decimal

def digits (n : Nat) : String := String.ofList (Nat.toDigits 10 n)

def zeros (n : Nat) : String := String.ofList (List.replicate n '0')

/-- The digits of `n` with zeros in front up to `width`. -/
def padded (width n : Nat) : String :=
  let text := digits n
  zeros (width - text.length) ++ text

def tenTo (n : Nat) : Nat := Nat.pow 10 n

def digitCount (n : Nat) : Nat := (Nat.toDigits 10 n).length

/-- How a real is told apart from its neighbours: the value and the ends of the interval of reals
that round to it, all over one denominator, and whether the ends belong to the interval. -/
structure Interval where
  value : Nat
  low : Nat
  high : Nat
  den : Nat
  closed : Bool

namespace Interval

/-- The interval of a positive value of `u` units, where one unit is `1 / scale` and a mantissa has
`precision` bits. Below a power of two the neighbour is half as far. -/
def ofUnits (precision u scale : Nat) : Interval :=
  let k := u.log2 + 1 - precision
  let below := if u = 1 <<< (k + precision - 1) ∧ 0 < k then 1 else 2
  { value := 4 * u
    low := 4 * u - below <<< k
    high := 4 * u + 2 <<< k
    den := 4 * scale
    closed := (u >>> k) % 2 == 0 }

/-- Whether `a / b` of the interval's scale is inside, `a / b` being no greater than the value. -/
def holdsBelow (i : Interval) (a b : Nat) : Bool :=
  if i.closed then i.low * b ≤ a else i.low * b < a

def holdsAbove (i : Interval) (a b : Nat) : Bool :=
  if i.closed then a ≤ i.high * b else a < i.high * b

/-- The exponent `e` with 10^(e-1) ≤ value < 10^e. -/
def magnitude (i : Interval) : Int :=
  if i.den ≤ i.value then digitCount (i.value / i.den)
  else 1 - (digitCount ((i.den + i.value - 1) / i.value - 1) : Int)

/-- The decimal `c * 10^j`. -/
structure Digits where
  coefficient : Nat
  exponent : Int
deriving DecidableEq, Repr

/-- Drops final zeros, at most `fuel` of them. -/
def Digits.strip : Nat → Digits → Digits
  | 0, d => d
  | fuel + 1, d =>
    if d.coefficient % 10 = 0 ∧ d.coefficient ≠ 0 then
      strip fuel ⟨d.coefficient / 10, d.exponent + 1⟩
    else d

/-- The nearest point of the interval on the grid of step 10^j, if there is one. A tie goes up. -/
def onGrid? (i : Interval) (j : Int) : Option Digits :=
  let up := tenTo j.toNat
  let down := tenTo (-j).toNat
  -- the value in steps of the grid is `num / step`
  let num := i.value * down
  let step := i.den * up
  let c := num / step
  let below := i.holdsBelow (c * step) down
  let above := i.holdsAbove ((c + 1) * step) down
  if below && above then
    if 2 * (num % step) < step then some ⟨c, j⟩ else some ⟨c + 1, j⟩
  else if below then some ⟨c, j⟩
  else if above then some ⟨c + 1, j⟩
  else none

/-- Tries grids of growing fineness, `fuel` of them. -/
def search (i : Interval) : Nat → Int → Digits
  | 0, j => ⟨0, j⟩
  | fuel + 1, j =>
    match i.onGrid? j with
    | some d => d
    | none => search i fuel (j - 1)

/-- The fewest digits inside the interval: seventeen always suffice for binary64. -/
def shortest (i : Interval) : Digits :=
  (search i 20 (i.magnitude - 1)).strip 20

end Interval

/-- Digits without an exponent, and no point where there is no fraction. -/
def positional (d : Interval.Digits) : String :=
  let text := digits d.coefficient
  if 0 ≤ d.exponent then text ++ zeros d.exponent.toNat
  else
    let places := (-d.exponent).toNat
    let whole := d.coefficient / tenTo places
    digits whole ++ "." ++ padded places (d.coefficient % tenTo places)

/-- One digit before the point, the others behind it, then the power of ten. -/
def scientific (d : Interval.Digits) : String :=
  match (digits d.coefficient).toList with
  | [] => ""
  | first :: rest =>
    let point := if rest.isEmpty then "" else "."
    let power := d.exponent + rest.length
    let sign := if power < 0 then "-" else ""
    String.ofList [first] ++ point ++ String.ofList rest ++ "e" ++ sign ++ digits power.natAbs

/-- How the texts of a real are put together: what is special comes first, then sign and digits. -/
def signedText (negative nan infinite : Bool) (magnitude : String) : String :=
  if nan then "NaN"
  else (if negative then "-" else "") ++ (if infinite then "inf" else magnitude)

/-- The exact value to `places` digits behind the point. -/
def fixed (places : Nat) (x : Binary64) : String :=
  let n := roundHalfEven (x.unitsAbs * tenTo places) Binary64.scale
  let text := digits (n / tenTo places) ++ "." ++ padded places (n % tenTo places)
  signedText x.negative x.isNaN x.isInfinite text

def shortest64 (x : Binary64) : Interval.Digits :=
  (Interval.ofUnits 53 x.unitsAbs Binary64.scale).shortest

/-- The shortest text of a real that reads back, never with an exponent. -/
def plain64 (x : Binary64) : String :=
  let text := if x.isZero then "0" else if x.isInfinite then "" else positional (shortest64 x)
  signedText x.negative x.isNaN x.isInfinite text

def plain32 (word : UInt32) : String :=
  let units := Binary32.unitsAbs word
  let special := Binary32.isSpecial word
  let text :=
    if units = 0 then "0"
    else if special then ""
    else positional (Interval.ofUnits 24 units (1 <<< 149)).shortest
  let nan := special && Binary32.fraction word != 0
  signedText (Binary32.negative word) nan (special && !nan) text

/-- The shortest text that shows its value to be a real: a fraction is always written, and magnitudes
from 10^16 on or below 10^-4 carry an exponent. -/
def detailed64 (x : Binary64) : String :=
  let text :=
    if x.isZero then "0.0"
    else if x.isInfinite then ""
    else
      let d := shortest64 x
      if tenTo 16 * Binary64.scale ≤ x.unitsAbs ∨ x.unitsAbs * tenTo 4 < Binary64.scale then
        scientific d
      else if 0 ≤ d.exponent then positional d ++ ".0"
      else positional d
  signedText x.negative x.isNaN x.isInfinite text

end ScriptVm.Decimal
