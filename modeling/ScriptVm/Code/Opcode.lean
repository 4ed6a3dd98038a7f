import ScriptVm.Code.Error
import ScriptVm.Number.Binary64

/-! The instruction set. An instruction is an opcode byte and the operands that the opcode's layout
lists. Opcodes are numbered from zero in the order in which they stand here. -/

namespace ScriptVm

inductive OperandKind where
  | u8
  | i8
  | u32
  | i32
  | u64
  | f32
  | f64
  | text
  | address
  | native
  | callee
deriving DecidableEq, Repr

namespace OperandKind

/-- How many bytes an operand takes; the size of a text depends on the text. -/
def width? : OperandKind → Option Nat
  | .u8 | .i8 => some 1
  | .u32 | .i32 | .f32 | .address | .native | .callee => some 4
  | .u64 | .f64 => some 8
  | .text => none

/-- The operands of a kind. A 32-bit real is kept as its word. -/
@[reducible] def Carrier : OperandKind → Type
  | .u8 => UInt8
  | .i8 => Int8
  | .u32 => UInt32
  | .i32 => Int32
  | .u64 => UInt64
  | .f32 => UInt32
  | .f64 => Binary64
  | .text => String
  | .address => Int32
  | .native => UInt32
  | .callee => UInt32

end OperandKind

inductive Opcode where
  -- constants
  | ldiFalse | ldiTrue | ldiUndef | ldiF32 | ldiF64 | ldiS32 | ldiU64 | ldiString | ldiZero
  | ldiSelf | ldiOther | ldiArr
  -- arithmetic
  | inc | dec | incl | decl | add2 | sub2 | mult2 | fdiv2 | idiv2 | mod2 | lsh2 | rsh2
  -- comparison, into the condition flag
  | gt | lt | gte | lte | eq | neq
  -- logic and bits
  | bland | blor | blxor | band | bor | bxor | bnot
  -- flags
  | cond | ncond | pcond | sfx | ufx
  -- locals
  | all | stl | ldl
  -- variables of self, of an owner, of the globals
  | sts | lds | sto | ldo | stg | ldg
  -- built-in variables of self and of an owner
  | stt | ldt | stp | ldp
  -- array cells of locals, variables and built-ins
  | stla | ldla | stsa | ldsa | stoa | ldoa | stga | ldga | stpa | ldpa
  -- cells of nested arrays
  | stlax | ldlax | stoax | ldoax
  -- operand stack
  | pop | dup | dup2 | dup3 | dupn | dupi | deli | swap
  -- natives
  | nat
  -- iteration over instances
  | wti | wty | wtd
  -- control
  | jmp | bcond | call | ret | sus | nop | eof
deriving DecidableEq, Repr

namespace Opcode

def numbered : Array Opcode := #[
  .ldiFalse, .ldiTrue, .ldiUndef, .ldiF32, .ldiF64, .ldiS32, .ldiU64, .ldiString, .ldiZero,
  .ldiSelf, .ldiOther, .ldiArr, .inc, .dec, .incl, .decl, .add2, .sub2, .mult2, .fdiv2, .idiv2,
  .mod2, .lsh2, .rsh2, .gt, .lt, .gte, .lte, .eq, .neq, .bland, .blor, .blxor, .band, .bor, .bxor,
  .bnot, .cond, .ncond, .pcond, .sfx, .ufx, .all, .stl, .ldl, .sts, .lds, .sto, .ldo, .stg, .ldg,
  .stt, .ldt, .stp, .ldp, .stla, .ldla, .stsa, .ldsa, .stoa, .ldoa, .stga, .ldga, .stpa, .ldpa,
  .stlax, .ldlax, .stoax, .ldoax, .pop, .dup, .dup2, .dup3, .dupn, .dupi, .deli, .swap, .nat, .wti,
  .wty, .wtd, .jmp, .bcond, .call, .ret, .sus, .nop, .eof]

def byte (op : Opcode) : UInt8 := op.ctorIdx.toUInt8

def ofByte? (b : UInt8) : Option Opcode := numbered[b.toNat]?

@[simp] theorem ofByte?_byte (op : Opcode) : ofByte? op.byte = some op := by
  cases op <;> rfl

def mnemonic : Opcode → String
  | .ldiFalse => "ldi_false"
  | .ldiTrue => "ldi_true"
  | .ldiUndef => "ldi_undef"
  | .ldiF32 => "ldi_f32"
  | .ldiF64 => "ldi_f64"
  | .ldiS32 => "ldi_s32"
  | .ldiU64 => "ldi_u64"
  | .ldiString => "ldi_string"
  | .ldiZero => "ldi_zero"
  | .ldiSelf => "ldi_self"
  | .ldiOther => "ldi_other"
  | .ldiArr => "ldi_arr"
  | .inc => "inc"
  | .dec => "dec"
  | .incl => "incl"
  | .decl => "decl"
  | .add2 => "add2"
  | .sub2 => "sub2"
  | .mult2 => "mult2"
  | .fdiv2 => "fdiv2"
  | .idiv2 => "idiv2"
  | .mod2 => "mod2"
  | .lsh2 => "lsh2"
  | .rsh2 => "rsh2"
  | .gt => "gt"
  | .lt => "lt"
  | .gte => "gte"
  | .lte => "lte"
  | .eq => "eq"
  | .neq => "neq"
  | .bland => "bland"
  | .blor => "blor"
  | .blxor => "blxor"
  | .band => "band"
  | .bor => "bor"
  | .bxor => "bxor"
  | .bnot => "bnot"
  | .cond => "cond"
  | .ncond => "ncond"
  | .pcond => "pcond"
  | .sfx => "sfx"
  | .ufx => "ufx"
  | .all => "all"
  | .stl => "stl"
  | .ldl => "ldl"
  | .sts => "sts"
  | .lds => "lds"
  | .sto => "sto"
  | .ldo => "ldo"
  | .stg => "stg"
  | .ldg => "ldg"
  | .stt => "stt"
  | .ldt => "ldt"
  | .stp => "stp"
  | .ldp => "ldp"
  | .stla => "stla"
  | .ldla => "ldla"
  | .stsa => "stsa"
  | .ldsa => "ldsa"
  | .stoa => "stoa"
  | .ldoa => "ldoa"
  | .stga => "stga"
  | .ldga => "ldga"
  | .stpa => "stpa"
  | .ldpa => "ldpa"
  | .stlax => "stlax"
  | .ldlax => "ldlax"
  | .stoax => "stoax"
  | .ldoax => "ldoax"
  | .pop => "pop"
  | .dup => "dup"
  | .dup2 => "dup2"
  | .dup3 => "dup3"
  | .dupn => "dupn"
  | .dupi => "dupi"
  | .deli => "deli"
  | .swap => "swap"
  | .nat => "nat"
  | .wti => "wti"
  | .wty => "wty"
  | .wtd => "wtd"
  | .jmp => "jmp"
  | .bcond => "bcond"
  | .call => "call"
  | .ret => "ret"
  | .sus => "sus"
  | .nop => "nop"
  | .eof => "eof"

def ofMnemonic? (name : String) : Option Opcode := numbered.find? (·.mnemonic == name)

@[reducible] def layout : Opcode → List OperandKind
  | .ldiF32 => [.f32]
  | .ldiF64 => [.f64]
  | .ldiS32 => [.i32]
  | .ldiU64 => [.u64]
  | .ldiString => [.text]
  | .incl | .decl | .all | .stl | .ldl | .sts | .lds | .sto | .ldo | .stg | .ldg | .stt | .ldt
  | .stp | .ldp | .stla | .ldla | .stsa | .ldsa | .stoa | .ldoa | .stga | .ldga | .stpa | .ldpa => [.u32]
  | .stlax | .ldlax | .stoax | .ldoax => [.u32, .u32]
  | .dupn | .dupi | .deli | .ret => [.u8]
  | .nat => [.native, .i8]
  | .jmp | .bcond => [.address]
  | .call => [.callee, .u8]
  | _ => []

/-- Whether the next instruction is never reached from here by falling through. -/
def isTerminator (op : Opcode) : Bool := op == .jmp || op == .ret || op == .eof

/-- Whether the instruction can go on at an address it names. -/
def isBranch (op : Opcode) : Bool := op == .jmp || op == .bcond

end Opcode
end ScriptVm
