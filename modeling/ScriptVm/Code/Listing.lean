import ScriptVm.Code.Instruction
import ScriptVm.Number.Decimal

/-! Listings: one line for an instruction, with its address, mnemonic and operands. -/

namespace ScriptVm

abbrev NativeNames := UInt32 → Option String

def NativeNames.ofList (names : List String) : NativeNames := fun i => names[i.toNat]?

namespace Listing

def operandText (natives : NativeNames) : Operand → String
  | ⟨.u8, n⟩ => s!"{n.toNat}"
  | ⟨.i8, n⟩ => s!"{n.toInt}"
  | ⟨.u32, n⟩ => s!"{n.toNat}"
  | ⟨.i32, n⟩ => s!"{n.toInt}"
  | ⟨.u64, n⟩ => s!"{n.toNat}"
  | ⟨.f32, w⟩ => Decimal.plain32 w
  | ⟨.f64, x⟩ => Decimal.plain64 x
  | ⟨.text, s⟩ => Quoted.ofString s
  | ⟨.address, n⟩ => s!"@{n.toInt}"
  | ⟨.native, i⟩ => (natives i).getD s!"native#{i.toNat}"
  | ⟨.callee, i⟩ => s!"#{i.toNat}"

/-- The address in four columns. -/
def addressText (address : Nat) : String :=
  let text := s!"{address}"
  String.ofList (List.replicate (4 - text.length) ' ') ++ text

def line (natives : NativeNames) (i : Located) : String :=
  let words := i.instruction.op.mnemonic :: i.instruction.operands.toList.map (operandText natives)
  addressText i.address ++ ": " ++ String.intercalate " " words

end Listing

/-- The listing of a section, each line ended. -/
def Section.listing (s : Section) (natives : NativeNames) : Except CodeError String :=
  s.instructions.map fun is => String.join (is.map fun i => Listing.line natives i ++ "\n")

def Section.listingAt (s : Section) (address : Nat) (natives : NativeNames) :
    Except CodeError String :=
  match Cursor.readInstruction { home := s, position := address } with
  | .ok i _ => .ok (Listing.line natives ⟨address, i⟩)
  | .error e _ => .error e

end ScriptVm
