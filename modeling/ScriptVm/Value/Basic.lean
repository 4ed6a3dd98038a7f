import ScriptVm.Fault
import ScriptVm.Number.Binary64

/-! Dynamic values. An array value is a handle on data that other handles may share, so values are
flat: what an array holds is a question to the heap. -/

namespace ScriptVm

/-- Where array data lives in the heap. -/
abbrev Address := Nat

/-- A reference to array data. A handle without a target stands for an array nobody has written to.
`rooted` marks the handle that keeps the data's collector node a root. -/
structure Handle where
  target : Option Address := none
  rooted : Bool := false
deriving DecidableEq, Inhabited, Repr

/-- A second handle on the same data, which never anchors it. -/
def Handle.share (h : Handle) : Handle := { h with rooted := false }

inductive Kind where
  | undefined
  | bool
  | int
  | uint
  | real
  | string
  | array
  | pointer
deriving DecidableEq, Repr

def Kind.name : Kind → String
  | .undefined => "undefined"
  | .bool => "bool"
  | .int => "int"
  | .uint => "uint64"
  | .real => "real"
  | .string => "string"
  | .array => "array"
  | .pointer => "pointer"

inductive Value where
  | undefined
  | bool (b : Bool)
  | int (i : Int32)
  | uint (n : UInt64)
  | real (x : Binary64)
  | string (s : String)
  | array (h : Handle)
  | pointer (p : UInt64)
deriving DecidableEq, Inhabited, Repr

namespace Value

def kind : Value → Kind
  | .undefined => .undefined
  | .bool _ => .bool
  | .int _ => .int
  | .uint _ => .uint
  | .real _ => .real
  | .string _ => .string
  | .array _ => .array
  | .pointer _ => .pointer

def isUndefined (v : Value) : Bool := v.kind == .undefined

def isArray (v : Value) : Bool := v.kind == .array

def isString (v : Value) : Bool := v.kind == .string

def isNumeric (v : Value) : Bool :=
  v.kind == .bool || v.kind == .int || v.kind == .uint || v.kind == .real

/-- Whether the value is numeric and of a whole-number kind. -/
def isIntegral (v : Value) : Bool := v.isNumeric && v.kind != .real

def string? : Value → Option String
  | .string s => some s
  | _ => none

def target? : Value → Option Address
  | .array h => h.target
  | _ => none

def share : Value → Value
  | .array h => .array h.share
  | v => v

/-- The value as a branch condition: ints above zero, other numbers from a half on. -/
def condition : Value → Except Fault Bool
  | .undefined => .error .undefinedCondition
  | .bool b => .ok b
  | .int i => .ok (decide (0 < i.toInt))
  | .uint n => .ok (decide (n ≠ 0))
  | .real x => .ok (Binary64.half.le x)
  | v => .error (.undecided s!"cond(): {v.kind.name}")

end Value

/-- A number as the operators see it; truth values count as the ints 0 and 1. -/
inductive Num where
  | int (i : Int32)
  | uint (n : UInt64)
  | real (x : Binary64)
deriving DecidableEq, Repr

namespace Num

def toReal : Num → Binary64
  | .int i => .ofInt i.toInt
  | .uint n => .ofInt n.toNat
  | .real x => x

def toValue : Num → Value
  | .int i => .int i
  | .uint n => .uint n
  | .real x => .real x

end Num

def Value.num? : Value → Option Num
  | .bool b => some (.int (if b then 1 else 0))
  | .int i => some (.int i)
  | .uint n => some (.uint n)
  | .real x => some (.real x)
  | _ => none

end ScriptVm
