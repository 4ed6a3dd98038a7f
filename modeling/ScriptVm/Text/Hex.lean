/-! Hexadecimal text of numbers, in lower case. -/

namespace ScriptVm.Hex

/-- The digits of `n` without zeros in front. -/
def ofNat (n : Nat) : String := String.ofList (Nat.toDigits 16 n)

/-- The digits of `n` with zeros in front up to `width`. -/
def padded (width n : Nat) : String :=
  let digits := Nat.toDigits 16 n
  String.ofList (List.replicate (width - digits.length) '0' ++ digits)

def byte (b : UInt8) : String := padded 2 b.toNat

/-- Two digits for each byte. -/
def ofBytes (bytes : List UInt8) : String := String.join (bytes.map byte)

end ScriptVm.Hex
