import ScriptVm.Value.Basic

/-! The operators. Each is a table over the kinds of its operands. Whole numbers wrap; an int beside
a whole real stays an int; `/` is always real, and a zero divisor gives plus infinity. -/

namespace ScriptVm

inductive Operator where
  | add
  | sub
  | mul
  | div
  | rem
  | idiv
  | shl
  | shr
  | and
  | or
  | xor
deriving DecidableEq, Repr

/-- What the operator does, as an error about its operands says it. -/
def Operator.verb : Operator → String
  | .add => "add"
  | .sub => "subtract"
  | .mul => "multiply"
  | .div => "divide"
  | .rem => "%"
  | .idiv => "integer-divide"
  | .shl => "<<"
  | .shr => ">>"
  | .and => "&"
  | .or => "|"
  | .xor => "^"

namespace Num

/-- An int as a 64-bit word, sign extended. -/
def widen (i : Int32) : UInt64 := .ofInt i.toInt

/-- The low 32 bits of a word as an int. -/
def narrow (n : UInt64) : Int32 := .ofInt n.toNat

/-- A real as a word by way of the signed range. -/
def realWord (x : Binary64) : UInt64 := .ofInt x.toInt64.toInt

def add : Num → Num → Num
  | .int a, .int b => .int (a + b)
  | .int a, .uint b => .uint (widen a + b)
  | .int a, .real b => if b.isIntegral then .int (a + b.toInt32) else .real ((Num.int a).toReal.add b)
  | .uint a, .int b => .uint (a + widen b)
  | .uint a, .uint b => .uint (a + b)
  | .uint a, .real b =>
    let x := (Num.uint a).toReal
    if b.isIntegral && b.neg.le x then .uint (a + realWord b) else .real (x.add b)
  | .real a, .int b => if a.isIntegral then .int (a.toInt32 + b) else .real (a.add (Num.int b).toReal)
  | .real a, .uint b =>
    if a.isIntegral then
      if Binary64.zero.le a then .uint (a.toUInt64 + b) else .int (a.toInt32 + narrow b)
    else .real (a.add (Num.uint b).toReal)
  | .real a, .real b => .real (a.add b)

/-- Where the whole numbers of 128 bits end: two to the 127th. -/
def wideEnd : Nat := 0x80000000000000000000000000000000

/-- A whole number worked out in 128 bits, which must have it. An int keeps the low 32 of them. -/
def ofWide (n : Int) : Except Fault Num :=
  if -wideEnd ≤ n ∧ n < wideEnd then .ok (.int (.ofInt n)) else .error .crash

theorem ofWide_of_lt {n : Int} (h : n.natAbs < wideEnd) : ofWide n = .ok (.int (.ofInt n)) :=
  if_pos (by omega)

/-- The difference of two words, which must be one. -/
def difference (a b : UInt64) : Except Fault Num :=
  if b ≤ a then .ok (.uint (a - b)) else .error .crash

theorem difference_of_le {a b : UInt64} (h : b ≤ a) : difference a b = .ok (.uint (a - b)) := if_pos h

def sub : Num → Num → Except Fault Num
  | .int a, .int b => .ok (.int (a - b))
  | .int a, .uint b => .ok (.int (narrow (widen a - b)))
  | .int a, .real b =>
    .ok (if b.isIntegral then .int (a - b.toInt32) else .real ((Num.int a).toReal.sub b))
  | .uint a, .int b =>
    if (a.toNat : Int) < b.toInt then ofWide (a.toNat - b.toInt) else .ok (.uint (a - widen b))
  | .uint a, .uint b => if a < b then .ok (.int (narrow a - narrow b)) else difference a b
  | .uint a, .real b =>
    let x := (Num.uint a).toReal
    .ok (if b.isIntegral && b.le x then .uint (a - realWord b) else .real (x.sub b))
  | .real a, .int b =>
    .ok (if a.isIntegral then .int (a.toInt32 - b) else .real (a.sub (Num.int b).toReal))
  | .real a, .uint b =>
    .ok (if a.isIntegral then .int (a.toInt32 - narrow b) else .real (a.sub (Num.uint b).toReal))
  | .real a, .real b => .ok (.real (a.sub b))

def mul : Num → Num → Num
  | .int a, .int b => .int (a * b)
  | .int a, .uint b => .uint (widen a * b)
  | .int a, .real b => if b.isIntegral then .int (a * b.toInt32) else .real ((Num.int a).toReal.mul b)
  | .uint a, .int b => if b < 0 then .int (narrow a * b) else .uint (a * widen b)
  | .uint a, .uint b => .uint (a * b)
  | .uint a, .real b =>
    if b.isIntegral then
      if Binary64.zero.le b then .uint (a * b.toUInt64) else .int (narrow a * b.toInt32)
    else .real ((Num.uint a).toReal.mul b)
  | .real a, .int b =>
    let product := a.mul (Num.int b).toReal
    if a.isIntegral then .int product.toInt32 else .real product
  | .real a, .uint b =>
    let product := a.mul (Num.uint b).toReal
    if a.isIntegral then .uint product.toUInt64 else .real product
  | .real a, .real b => .real (a.mul b)

def div (a b : Num) : Num :=
  if b.toReal.isZero then .real .infinity else .real (a.toReal.div b.toReal)

def isZero : Num → Bool
  | .int i => i == 0
  | .uint n => n == 0
  | .real x => x.isZero

/-- Whether the number is whole; every int and word is. -/
def isIntegral : Num → Bool
  | .real x => x.isIntegral
  | _ => true

/-- A way to divide: in each width, and how a real dividend is brought to two of them. -/
structure Division where
  ints : Int32 → Int32 → Int32
  words : UInt64 → UInt64 → UInt64
  wide : Int → Int → Int
  toInt : Binary64 → Int32
  toWord : Binary64 → UInt64

namespace Division

/-- Nothing can be divided by zero, in this width or another. -/
def onInts (d : Division) (a b : Int32) : Except Fault Num :=
  if b = 0 then .error .crash else .ok (.int (d.ints a b))

def onWords (d : Division) (a b : UInt64) : Except Fault Num :=
  if b = 0 then .error .crash else .ok (.uint (d.words a b))

def onWide (d : Division) (a b : Int) : Except Fault Num :=
  if b = 0 then .error .crash else ofWide (d.wide a b)

theorem onInts_of_ne (d : Division) (a : Int32) {b : Int32} (h : b ≠ 0) :
    d.onInts a b = .ok (.int (d.ints a b)) := if_neg h

theorem onWords_of_ne (d : Division) (a : UInt64) {b : UInt64} (h : b ≠ 0) :
    d.onWords a b = .ok (.uint (d.words a b)) := if_neg h

def apply (d : Division) : Num → Num → Except Fault Num
  | .int a, .int b => d.onInts a b
  | .int a, .uint b => d.onWords (widen a) b
  | .int a, .real b => d.onInts a b.toInt32
  | .uint a, .int b => if b < 0 then d.onWide a.toNat b.toInt else d.onWords a (widen b)
  | .uint a, .uint b => d.onWords a b
  | .uint a, .real b =>
    if Binary64.zero.lt b then d.onWords a b.toUInt64 else d.onWide a.toNat b.toInt64.toInt
  | .real a, .int b => d.onInts (d.toInt a) b
  | .real a, .uint b => d.onWords (d.toWord a) b
  | .real a, .real b => d.onInts (d.toInt a) b.toInt32

end Division

/-- Remainder with the sign of the dividend. -/
def remainder : Division where
  ints a b := a % b
  words a b := a % b
  wide := Int.tmod
  toInt := Binary64.toInt32
  toWord := Binary64.toUInt64

/-- Quotient towards zero; a real dividend is floored first. -/
def quotient : Division where
  ints a b := a / b
  words a b := a / b
  wide := Int.tdiv
  toInt := Binary64.floorInt32
  toWord := Binary64.floorUInt64

def rem (a b : Num) : Except Fault Num :=
  if !a.isIntegral then .error (.undecided "% on non-integral real")
  else if !b.isIntegral then .error (.undecided "% by non-integral real")
  else if b.isZero then .error .divideByZero
  else remainder.apply a b

def idiv (a b : Num) : Except Fault Num :=
  if !b.isIntegral then .error (.undecided "div by non-integral real")
  else if b.isZero then .error .divideByZero
  else quotient.apply a b

def shiftBase (what : String) : Num → Except Fault UInt64
  | .int a => .ok (widen a)
  | .uint a => .ok a
  | .real a => if a.isIntegral then .ok (realWord a) else .error (.undecided what)

def shiftAmount (what : String) : Num → Except Fault Nat
  | .int b => if b < 0 then .error .negativeShift else .ok b.toInt.toNat
  | .uint b => .ok b.toNat
  | .real b =>
    if !b.isIntegral then .error (.undecided what)
    else if b.toInt64 < 0 then .error .negativeShift
    else .ok b.toInt64.toInt.toNat

/-- Bits shifted out are lost, also when all of them are. -/
def shl (a b : Num) : Except Fault Num := do
  let base ← a.shiftBase "<< on real"
  let amount ← b.shiftAmount "<< on real"
  return .uint (if amount < 64 then base <<< amount.toUInt64 else 0)

def shr (a b : Num) : Except Fault Num := do
  let base ← a.shiftBase ">> on real"
  let amount ← b.shiftAmount ">> on real"
  return .uint (if amount < 64 then base >>> amount.toUInt64 else 0)

/-- A bitwise operator from its two widths. -/
def bitwise (symbol : String) (narrowOp : Int32 → Int32 → Int32) (wideOp : UInt64 → UInt64 → UInt64)
    (a b : Num) : Except Fault Num :=
  if !a.isIntegral then .error (.undecided s!"{symbol} with non-integral real lhs")
  else if !b.isIntegral then .error (.undecided s!"{symbol} with non-integral real rhs")
  else .ok <|
    match a, b with
    | .int a, .int b => .int (narrowOp a b)
    | .int a, .uint b => .uint (wideOp (widen a) b)
    | .int a, .real b => .int (narrowOp a b.toInt32)
    | .uint a, .int b => if b < 0 then .int (narrowOp (narrow a) b) else .uint (wideOp a (widen b))
    | .uint a, .uint b => .uint (wideOp a b)
    | .uint a, .real b => .uint (wideOp a (realWord b))
    | .real a, .int b => .int (narrowOp a.toInt32 b)
    | .real a, .uint b => .uint (wideOp (realWord a) b)
    | .real a, .real b => .int (narrowOp a.toInt32 b.toInt32)

end Num

namespace Operator

def onNumbers : Operator → Num → Num → Except Fault Num
  | .add, a, b => .ok (a.add b)
  | .sub, a, b => a.sub b
  | .mul, a, b => .ok (a.mul b)
  | .div, a, b => .ok (a.div b)
  | .rem, a, b => a.rem b
  | .idiv, a, b => a.idiv b
  | .shl, a, b => a.shl b
  | .shr, a, b => a.shr b
  | .and, a, b => Num.bitwise "&" (· &&& ·) (· &&& ·) a b
  | .or, a, b => Num.bitwise "|" (· ||| ·) (· ||| ·) a b
  | .xor, a, b => Num.bitwise "^" (· ^^^ ·) (· ^^^ ·) a b

/-- The operator on any two values: strings can be added, and an undefined left side of `|` takes
the right side over. -/
def apply (op : Operator) (a b : Value) : Except Fault Value :=
  match op, a, b with
  | .add, .string s, .string t => .ok (.string (s ++ t))
  | .or, .undefined, b => .ok b.share
  | op, a, b =>
    match a.num?, b.num? with
    | some x, some y => (op.onNumbers x y).map Num.toValue
    | _, _ => .error (.badOperands op.verb)

end Operator

/-- All 64 bits flipped. -/
def Value.invert : Value → Except Fault Value
  | .bool b => .ok (.uint (~~~(if b then 1 else 0)))
  | .int i => .ok (.uint (~~~Num.widen i))
  | .uint n => .ok (.uint (~~~n))
  | .real x => .ok (.uint (~~~Num.realWord x))
  | _ => .error (.undecided "~ on unexpected type")

end ScriptVm
