/-! The fields of a binary32 word: a sign bit, eight exponent bits and twenty-three fraction bits. -/

namespace ScriptVm.Binary32

def negative (word : UInt32) : Bool := decide (1 <<< 31 ≤ word.toNat)

def exponent (word : UInt32) : Nat := (word.toNat % (1 <<< 31)) >>> 23

def fraction (word : UInt32) : Nat := word.toNat % (1 <<< 23)

/-- Whether the word is an infinity or a NaN, which has a fraction. -/
def isSpecial (word : UInt32) : Bool := exponent word == 255

/-- How many units of 2^-149 the magnitude is. -/
def unitsAbs (word : UInt32) : Nat :=
  if exponent word = 0 then fraction word
  else ((1 <<< 23) + fraction word) <<< (exponent word - 1)

end ScriptVm.Binary32
