import ScriptVm.Value.Basic

/-! Casts. `exact` succeeds only where the number fits the target without loss. `coerce` truncates,
clamps or wraps, and fails only between kinds that have nothing in common. -/

namespace ScriptVm

inductive CastTarget where
  | bool
  | int
  | int64
  | uint64
  | size
  | real
  | string
  | pointer
deriving DecidableEq, Repr

namespace CastTarget

def name : CastTarget → String
  | .bool => "bool"
  | .int => "int"
  | .int64 => "int64"
  | .uint64 => "uint64"
  | .size => "size"
  | .real => "real"
  | .string => "string"
  | .pointer => "pointer"

@[reducible] def Carrier : CastTarget → Type
  | .bool => Bool
  | .int => Int32
  | .int64 => Int64
  | .uint64 => UInt64
  | .size => UInt64
  | .real => Binary64
  | .string => String
  | .pointer => UInt64

/-- The value of the target's own kind, where there is such a kind. -/
def retag? : (t : CastTarget) → t.Carrier → Option Value
  | .bool, b => some (.bool b)
  | .int, i => some (.int i)
  | .int64, _ => none
  | .uint64, n => some (.uint n)
  | .size, _ => none
  | .real, x => some (.real x)
  | .string, s => some (.string s)
  | .pointer, p => some (.pointer p)

end CastTarget

namespace Value

def incompatible {α : Type} (v : Value) (t : CastTarget) : Except Fault α :=
  .error (.incompatible v.kind.name t.name)

/-- Passes a whole number that lies between the ends. -/
def within (v : Value) (t : CastTarget) (lo hi n : Int) : Except Fault Int :=
  if lo ≤ n ∧ n ≤ hi then .ok n else .error (.outOfRange v.kind.name t.name)

/-- The whole number a numeric value is, if it is one between the ends. -/
def whole (v : Value) (t : CastTarget) (lo hi : Int) : Except Fault Int :=
  match v with
  | .bool b => .ok (if b then 1 else 0)
  | .int i => v.within t lo hi i.toInt
  | .uint n => v.within t lo hi n.toNat
  | .real x =>
    if x.isIntegral then v.within t lo hi x.trunc else .error (.outOfRange v.kind.name t.name)
  | _ => v.incompatible t

def exact : (t : CastTarget) → Value → Except Fault t.Carrier
  | .bool, v => (v.whole .bool 0 1).map (fun n => decide (n = 1))
  | .int, v => (v.whole .int Int32.minValue.toInt Int32.maxValue.toInt).map Int32.ofInt
  | .int64, v => (v.whole .int64 Int64.minValue.toInt Int64.maxValue.toInt).map Int64.ofInt
  | .uint64, v => (v.whole .uint64 0 (UInt64.size - 1)).map UInt64.ofInt
  | .size, v => (v.whole .size 0 (UInt64.size - 1)).map UInt64.ofInt
  | .real, v =>
    match v with
    | .bool b => .ok (.ofInt (if b then 1 else 0))
    | .int i => .ok (.ofInt i.toInt)
    | .uint n =>
      let x := Binary64.ofInt n.toNat
      if x.trunc = n.toNat then .ok x else .error (.outOfRange v.kind.name CastTarget.real.name)
    | .real x => .ok x
    | _ => v.incompatible .real
  | .string, v =>
    match v with
    | .string s => .ok s
    | _ => v.incompatible .string
  | .pointer, v =>
    match v with
    | .pointer p => .ok p
    | _ => v.incompatible .pointer

/-- The low 64 bits of a number; a real is clamped to the signed range first. -/
def word (v : Value) (t : CastTarget) : Except Fault UInt64 :=
  match v with
  | .bool b => .ok (if b then 1 else 0)
  | .int i => .ok (.ofInt i.toInt)
  | .uint n => .ok n
  | .real x => .ok (.ofInt x.toInt64.toInt)
  | _ => v.incompatible t

def coerce : (t : CastTarget) → Value → Except Fault t.Carrier
  | .bool, v => v.condition
  | .int, v =>
    match v with
    | .bool b => .ok (if b then 1 else 0)
    | .int i => .ok i
    | .uint n => .ok (.ofInt n.toNat)
    | .real x => .ok x.toInt32
    | _ => v.incompatible .int
  | .int64, v =>
    match v with
    | .real x => .ok x.toInt64
    | _ => (v.word .int64).map (fun n => .ofInt n.toNat)
  | .uint64, v => v.word .uint64
  | .size, v => v.word .uint64
  | .real, v =>
    match v.num? with
    | some n => .ok n.toReal
    | none => v.incompatible .real
  | .string, v => v.exact .string
  | .pointer, v => v.exact .pointer

/-- Replaces a value by its coercion, tagged with the target's kind. A value that cannot be coerced
stays as it is. -/
def coerceInPlace (t : CastTarget) (v : Value) : Except Fault Unit × Value :=
  match v.coerce t with
  | .ok x => (.ok (), (t.retag? x).getD v)
  | .error e => (.error e, v)

end Value
end ScriptVm
