import ScriptVm.Text.Hex

/-! What can go wrong while code is read, assembled or looked up. -/

namespace ScriptVm

inductive CodeError where
  /-- The byte names no opcode; the address is known when it was read from a section. -/
  | unknownOpcode (byte : UInt8) (address : Option Nat)
  | unexpectedEnd (address : Nat)
  /-- An inline string that is no text or holds a zero byte. -/
  | invalidString (address : Nat)
  | invalidAddress (target : Int) (size : Nat)
  | noSuchSection (index : UInt32)
  | noImmediate (kind : String)
  | unboundLabel (label : Nat)
deriving DecidableEq, Repr

def CodeError.message : CodeError → String
  | .unknownOpcode byte none => s!"Unknown opcode 0x{Hex.byte byte}"
  | .unknownOpcode byte (some address) => s!"Unknown opcode 0x{Hex.byte byte} at {address}"
  | .unexpectedEnd address => s!"Unexpected end of bytecode at {address}"
  | .invalidString address => s!"Malformed inline string at {address}"
  | .invalidAddress target size => s!"Branch target {target} outside section of length {size}"
  | .noSuchSection index => s!"No bytecode section with index {index.toNat}"
  | .noImmediate kind => s!"Values of kind {kind} have no immediate form"
  | .unboundLabel label => s!"Label {label} was never bound"

end ScriptVm
