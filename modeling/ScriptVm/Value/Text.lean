import ScriptVm.Number.Decimal
import ScriptVm.Text.Hex
import ScriptVm.Value.Basic

/-! The text of a value that is no array. -/

namespace ScriptVm

/-- Reals are written with two places, strings between quotes as they are, words end in `L`. -/
def Value.scalarText : Value → String
  | .undefined => "<undefined>"
  | .bool true => "True"
  | .bool false => "False"
  | .int i => s!"{i.toInt}"
  | .uint n => s!"{n.toNat}L"
  | .real x => Decimal.fixed 2 x
  | .string s => "\"" ++ s ++ "\""
  | .pointer p => s!"<0x{Hex.ofNat p.toNat}>"
  | .array _ => "[]"

end ScriptVm
