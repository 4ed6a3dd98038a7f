import ScriptVm.Number.Binary32

/-! Binary64 reals as 64-bit words. Every finite one is a whole multiple of 2^-1074, its `units`, and
the two infinities lie at ±2^2098 units, beyond all the others. So order, truncation and arithmetic
are exact integer work, and `ofUnits` is the only place where anything is rounded. -/

namespace ScriptVm

/-- The quotient `num / den` to the nearest whole number; a half goes to the even one. -/
def roundHalfEven (num den : Nat) : Nat :=
  let q := num / den
  let r := num % den
  if 2 * r < den then q
  else if den < 2 * r then q + 1
  else q + q % 2

/-- A binary64 word: sign, eleven exponent bits, fifty-two fraction bits. -/
structure Binary64 where
  bits : UInt64
deriving DecidableEq, Inhabited, Repr

namespace Binary64

def ofNatBits (n : Nat) : Binary64 := ⟨n.toUInt64⟩

def infinityMagnitude : Nat := 0x7FF0000000000000

def signed (negative : Bool) (magnitude : Nat) : Binary64 :=
  ofNatBits (if negative then (1 <<< 63) + magnitude else magnitude)

def zero : Binary64 := signed false 0
def half : Binary64 := ofNatBits 0x3FE0000000000000
def infinity : Binary64 := signed false infinityMagnitude

def indefinite : Binary64 := ofNatBits 0xFFF8000000000000

def negative (x : Binary64) : Bool := decide (1 <<< 63 ≤ x.bits.toNat)

def magnitude (x : Binary64) : Nat := x.bits.toNat % (1 <<< 63)

def exponent (x : Binary64) : Nat := x.magnitude >>> 52

def fraction (x : Binary64) : Nat := x.magnitude % (1 <<< 52)

def isNaN (x : Binary64) : Bool := decide (infinityMagnitude < x.magnitude)

def isInfinite (x : Binary64) : Bool := decide (x.magnitude = infinityMagnitude)

def isZero (x : Binary64) : Bool := decide (x.magnitude = 0)

/-- How many units of 2^-1074 the magnitude is. -/
def unitsAbs (x : Binary64) : Nat :=
  if x.exponent = 0 then x.fraction else ((1 <<< 52) + x.fraction) <<< (x.exponent - 1)

/-- The value in units of 2^-1074; no meaning for a NaN. -/
def units (x : Binary64) : Int :=
  if x.negative then -(x.unitsAbs : Int) else x.unitsAbs

def scale : Nat := 1 <<< 1074

/-- The nearest word to `num / den` units with the given sign, a half going to the even word. The
step between neighbours near `u` units is 2^k with k = log2 u - 52 (zero for the subnormals), and the
bits of the word are k times 2^52 plus the value in such steps. -/
def ofUnits (negative : Bool) (num den : Nat) : Binary64 :=
  let k := (num / den).log2 - 52
  signed negative (min ((k <<< 52) + roundHalfEven num (den <<< k)) infinityMagnitude)

def ofInt (n : Int) : Binary64 := ofUnits (decide (n < 0)) (n.natAbs * scale) 1

def quiet (x : Binary64) : Binary64 := ⟨x.bits ||| 0x0008000000000000⟩

def neg (x : Binary64) : Binary64 := ⟨x.bits ^^^ 0x8000000000000000⟩

/-- A NaN operand is the result, the left one first. -/
def propagate (x y : Binary64) (otherwise : Binary64) : Binary64 :=
  if x.isNaN then x.quiet else if y.isNaN then y.quiet else otherwise

def sum (x y : Binary64) : Binary64 :=
  if x.isInfinite then
    if y.isInfinite && x.negative != y.negative then indefinite else x
  else if y.isInfinite then y
  else
    let s := x.units + y.units
    if s = 0 then signed (x.negative && y.negative) 0
    else ofUnits (decide (s < 0)) s.natAbs 1

def add (x y : Binary64) : Binary64 := propagate x y (sum x y)

def sub (x y : Binary64) : Binary64 := propagate x y (sum x y.neg)

def mul (x y : Binary64) : Binary64 :=
  let sign := x.negative != y.negative
  propagate x y <|
    if x.isInfinite || y.isInfinite then
      if x.isZero || y.isZero then indefinite else signed sign infinityMagnitude
    else ofUnits sign (x.unitsAbs * y.unitsAbs) scale

def div (x y : Binary64) : Binary64 :=
  let sign := x.negative != y.negative
  propagate x y <|
    if x.isInfinite then
      if y.isInfinite then indefinite else signed sign infinityMagnitude
    else if y.isInfinite then signed sign 0
    else if y.isZero then
      if x.isZero then indefinite else signed sign infinityMagnitude
    else ofUnits sign (x.unitsAbs * scale) y.unitsAbs

def compare? (x y : Binary64) : Option Ordering :=
  if x.isNaN || y.isNaN then none else some (compare x.units y.units)

def le (x y : Binary64) : Bool := (compare? x y).any (· != .gt)

def lt (x y : Binary64) : Bool := compare? x y == some .lt

/-- Whether the real equals its own floor: whole numbers and both infinities do. -/
def isIntegral (x : Binary64) : Bool := !x.isNaN && decide (x.unitsAbs % scale = 0)

/-- The whole part, towards zero. An infinity gives ±2^1024. -/
def trunc (x : Binary64) : Int := x.units.tdiv scale

def floor (x : Binary64) : Int := x.units / (scale : Int)

def clamp (lo hi n : Int) : Int := max lo (min hi n)

/-- A whole number read off a real: a NaN is zero and the ends of the range hold what is beyond. -/
def saturate (lo hi : Int) (x : Binary64) (whole : Int) : Int :=
  if x.isNaN then 0 else clamp lo hi whole

def toInt32 (x : Binary64) : Int32 := .ofInt (x.saturate Int32.minValue.toInt Int32.maxValue.toInt x.trunc)

def toInt64 (x : Binary64) : Int64 := .ofInt (x.saturate Int64.minValue.toInt Int64.maxValue.toInt x.trunc)

def toUInt64 (x : Binary64) : UInt64 := .ofInt (x.saturate 0 (UInt64.size - 1) x.trunc)

def floorInt32 (x : Binary64) : Int32 := .ofInt (x.saturate Int32.minValue.toInt Int32.maxValue.toInt x.floor)

def floorUInt64 (x : Binary64) : UInt64 := .ofInt (x.saturate 0 (UInt64.size - 1) x.floor)

/-- The same real from a binary32 word. A NaN keeps its fraction and becomes quiet. -/
def ofBinary32 (word : UInt32) : Binary64 :=
  let negative := Binary32.negative word
  let fraction := Binary32.fraction word
  if Binary32.isSpecial word then
    if fraction = 0 then signed negative infinityMagnitude
    else quiet (signed negative (infinityMagnitude + fraction <<< 29))
  else ofUnits negative (Binary32.unitsAbs word <<< 925) 1

end Binary64
end ScriptVm
