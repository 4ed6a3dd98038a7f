import ScriptVm.Value.Basic

/-! Equality and order of values. Numbers compare across their kinds, strings by content, arrays and
pointers by identity. Only numbers are ordered. -/

namespace ScriptVm

/-- Whole numbers compare exactly; beside a real both sides are reals. -/
def Num.compare? : Num → Num → Option Ordering
  | .int a, .int b => some (compare a.toInt b.toInt)
  | .int a, .uint b => some (compare a.toInt (b.toNat : Int))
  | .uint a, .int b => some (compare (a.toNat : Int) b.toInt)
  | .uint a, .uint b => some (compare a.toNat b.toNat)
  | a, b => a.toReal.compare? b.toReal

namespace Value

/-- Equality of values held in two places. A handle without data is equal to no other handle. -/
def equals (a b : Value) : Bool :=
  match a.num?, b.num? with
  | some x, some y => x.compare? y == some .eq
  | _, _ =>
    match a, b with
    | .undefined, .undefined => true
    | .string s, .string t => s == t
    | .array g, .array h => g.target.isSome && g.target == h.target
    | .pointer p, .pointer q => p == q
    | _, _ => false

/-- Equality of a value with itself: an array is the same whether it has data or not, a NaN is not. -/
def equalsSelf (a : Value) : Bool := a.isArray || a.equals a

/-- The order of two numbers; `none` if one is a NaN. -/
def order (a b : Value) : Except Fault (Option Ordering) :=
  match a.num?, b.num? with
  | some x, some y => .ok (x.compare? y)
  | _, _ => .error .unordered

end Value

inductive Relation where
  | lt
  | le
  | gt
  | ge
deriving DecidableEq, Repr

/-- Whether the relation allows this order; a NaN allows none. -/
def Relation.holds : Relation → Option Ordering → Bool
  | .lt, some .lt => true
  | .le, some .lt | .le, some .eq => true
  | .gt, some .gt => true
  | .ge, some .gt | .ge, some .eq => true
  | _, _ => false

def Value.related (r : Relation) (a b : Value) : Except Fault Bool :=
  (a.order b).map r.holds

structure Comparison where
  equal : Bool
  order : Except Fault (Option Ordering)
  /-- Less, at most, greater, at least. -/
  related : List (Except Fault Bool)

def Value.comparison (a b : Value) : Comparison :=
  { equal := a.equals b
    order := a.order b
    related := [.lt, .le, .gt, .ge].map fun r => a.related r b }

end ScriptVm
