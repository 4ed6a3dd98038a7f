import ScriptVm.Code.Opcode
import ScriptVm.Code.Section
import ScriptVm.Number.LittleEndian

/-! Reading code. A cursor stands at a position of a section; a read that fails leaves it where that
read began, except that the byte of an unknown opcode has been passed. -/

namespace ScriptVm

structure Cursor where
  home : Section
  position : Nat := 0
deriving DecidableEq, Repr

abbrev Scan := EStateM CodeError Cursor

namespace Cursor

def atEnd (c : Cursor) : Bool := c.home.size ≤ c.position

def summary (c : Cursor) : String := s!"{c.home.name}@{c.position}"

/-- Moves to an address of the section; its end counts as one. -/
def seek (target : Int32) : Scan Unit := fun c =>
  if 0 ≤ target.toInt ∧ target.toInt ≤ c.home.size then
    .ok () { c with position := target.toInt.toNat }
  else .error (.invalidAddress target.toInt c.home.size) c

def readBytes (count : Nat) : Scan (List UInt8) := fun c =>
  let stop := c.position + count
  if stop ≤ c.home.size then
    .ok (c.home.code.extract c.position stop).toList { c with position := stop }
  else .error (.unexpectedEnd c.position) c

def readNat (count : Nat) : Scan Nat := return LittleEndian.toNat (← readBytes count)

/-- The address of the first zero byte from `i` on. -/
def zeroAt? (code : Array UInt8) (i : Nat) : Option Nat :=
  if h : i < code.size then
    if code[i] = 0 then some i else zeroAt? code (i + 1)
  else none
termination_by code.size - i

/-- The next text, which ends before a zero byte. -/
def readText : Scan String := fun c =>
  match zeroAt? c.home.code c.position with
  | none => .error (.unexpectedEnd c.position) c
  | some stop =>
    match String.fromUTF8? ⟨c.home.code.extract c.position stop⟩ with
    | some s => .ok s { c with position := stop + 1 }
    | none => .error (.invalidString c.position) c

def readOpcode : Scan Opcode := fun c =>
  match c.home.code[c.position]? with
  | none => .error (.unexpectedEnd c.position) c
  | some byte =>
    let next := { c with position := c.position + 1 }
    match Opcode.ofByte? byte with
    | some op => .ok op next
    | none => .error (.unknownOpcode byte (some c.position)) next

def readU8 : Scan UInt8 := return (← readNat 1).toUInt8

def readI8 : Scan Int8 := return (← readNat 1).toInt8

def readU32 : Scan UInt32 := return (← readNat 4).toUInt32

def readI32 : Scan Int32 := return (← readNat 4).toInt32

def readU64 : Scan UInt64 := return (← readNat 8).toUInt64

def readReal : Scan Binary64 := return ⟨(← readNat 8).toUInt64⟩

def readOperand : (k : OperandKind) → Scan k.Carrier
  | .u8 => readU8
  | .i8 => readI8
  | .u32 | .f32 | .native | .callee => readU32
  | .i32 | .address => readI32
  | .u64 => readU64
  | .f64 => readReal
  | .text => readText

end Cursor
end ScriptVm
