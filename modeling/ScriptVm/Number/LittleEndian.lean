/-! Numbers as bytes, the lowest byte first. -/

namespace ScriptVm.LittleEndian

/-- The low `width` bytes of `n`. -/
def bytes : Nat → Nat → List UInt8
  | 0, _ => []
  | width + 1, n => UInt8.ofNat (n % 256) :: bytes width (n / 256)

def toNat : List UInt8 → Nat
  | [] => 0
  | b :: rest => b.toNat + 256 * toNat rest

@[simp] theorem length_bytes (width n : Nat) : (bytes width n).length = width := by
  induction width generalizing n with
  | zero => rfl
  | succ width ih => simp [bytes, ih]

theorem toNat_bytes (width n : Nat) : toNat (bytes width n) = n % (1 <<< (8 * width)) := by
  induction width generalizing n with
  | zero => simp [bytes, toNat, Nat.mod_one]
  | succ width ih =>
    have low : (UInt8.ofNat (n % 256)).toNat = n % 256 := by
      simp
    have grow : 1 <<< (8 * (width + 1)) = 256 * 1 <<< (8 * width) := by
      rw [Nat.mul_succ, Nat.shiftLeft_add]
      omega
    rw [bytes, toNat, ih, low, grow, Nat.mod_mul]

end ScriptVm.LittleEndian
