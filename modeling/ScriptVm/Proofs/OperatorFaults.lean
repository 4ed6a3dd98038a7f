import ScriptVm.Heap.Arrays
import ScriptVm.Proofs.Rounding
import ScriptVm.Proofs.WordArithmetic
import Mathlib.Algebra.Order.Ring.Int

/-! What an operator refuses. Which operands it wants whole, and whether it divides or shifts, decides
the kind of the error; what passes those checks comes out. That takes an argument for the divisions
only: they bring a real divisor to the width of the dividend, and there it must not be zero. A whole real
other than zero is at least one away from it, and neither truncation nor the ends of a width lead back. -/

namespace ScriptVm

open Binary64

/-! ### Whole reals in a width -/

namespace Binary64

variable {x : Binary64} {lo hi n : ℤ}

theorem unitsAbs_eq_zero_iff : x.unitsAbs = 0 ↔ x.isZero = true := by
  have hf : x.fraction = x.magnitude % 2 ^ 52 := rfl
  have he : x.exponent = x.magnitude / 2 ^ 52 := Nat.shiftRight_eq_div_pow _ _
  rw [isZero, decide_eq_true_iff, unitsAbs]
  split_ifs with h0
  · omega
  · have hpos : 0 < ((1 <<< 52) + x.fraction) <<< (x.exponent - 1) := by
      rw [Nat.shiftLeft_eq]
      exact Nat.mul_pos (by omega) (Nat.two_pow_pos _)
    omega

/-- A real equals its own floor if its units are those of the floor; the two infinities do, a NaN does
not. -/
theorem isIntegral_iff_floor : x.isIntegral = true ↔ x.isNaN = false ∧ x.units = x.floor * scale := by
  have hs : (scale : ℤ) ≠ 0 := by exact_mod_cast scale_pos.ne'
  have hdvd : x.unitsAbs % scale = 0 ↔ (scale : ℤ) ∣ x.units := by
    rw [← Nat.dvd_iff_mod_eq_zero, Int.natCast_dvd, natAbs_units]
  simp only [isIntegral, Bool.and_eq_true, Bool.not_eq_true', decide_eq_true_iff, hdvd, floor]
  refine and_congr_right fun _ => ⟨fun h => (Int.ediv_mul_cancel h).symm, fun h => ?_⟩
  rw [h]
  exact Dvd.intro_left _ rfl

theorem trunc_eq_zero_iff (hx : x.isIntegral = true) : x.trunc = 0 ↔ x.isZero = true := by
  have hs : (scale : ℤ) ≠ 0 := by exact_mod_cast scale_pos.ne'
  rw [← unitsAbs_eq_zero_iff, ← natAbs_units, Int.natAbs_eq_zero, units_of_isIntegral hx, mul_eq_zero,
    or_iff_left hs]

theorem saturate_mem (x : Binary64) (h0 : lo ≤ 0) (h1 : 0 ≤ hi) (n : ℤ) :
    lo ≤ x.saturate lo hi n ∧ x.saturate lo hi n ≤ hi := by
  unfold saturate clamp
  split_ifs <;> omega

theorem toInt_toInt32 (x : Binary64) :
    x.toInt32.toInt = x.saturate Int32.minValue.toInt Int32.maxValue.toInt x.trunc := by
  obtain ⟨h0, h1⟩ := x.saturate_mem (by decide : Int32.minValue.toInt ≤ 0)
    (by decide : 0 ≤ Int32.maxValue.toInt) x.trunc
  exact Int32.toInt_ofInt_of_le h0 (Int.lt_add_one_of_le h1)

theorem toInt_toInt64 (x : Binary64) :
    x.toInt64.toInt = x.saturate Int64.minValue.toInt Int64.maxValue.toInt x.trunc := by
  obtain ⟨h0, h1⟩ := x.saturate_mem (by decide : Int64.minValue.toInt ≤ 0)
    (by decide : 0 ≤ Int64.maxValue.toInt) x.trunc
  exact Int64.toInt_ofInt_of_le h0 (Int.lt_add_one_of_le h1)

theorem saturate_sign (hx : x.isNaN = false) (h0 : lo < 0) (h1 : 0 < hi) :
    (x.saturate lo hi n = 0 ↔ n = 0) ∧ (x.saturate lo hi n < 0 ↔ n < 0) := by
  simp only [saturate, hx, Bool.false_eq_true, if_false, clamp]
  omega

section Whole

variable (hx : x.isIntegral = true) (h0 : x.isZero = false)
include hx h0

theorem trunc_ne_zero : x.trunc ≠ 0 := fun h =>
  Bool.false_ne_true (h0.symm.trans ((trunc_eq_zero_iff hx).1 h))

theorem toInt32_ne_zero : x.toInt32.toInt ≠ 0 := by
  rw [toInt_toInt32]
  exact mt (saturate_sign (isNaN_of_isIntegral hx) (by decide) (by decide)).1.1 (trunc_ne_zero hx h0)

theorem toInt64_ne_zero : x.toInt64.toInt ≠ 0 := by
  rw [toInt_toInt64]
  exact mt (saturate_sign (isNaN_of_isIntegral hx) (by decide) (by decide)).1.1 (trunc_ne_zero hx h0)

end Whole

theorem zero_lt_iff (hx : x.isNaN = false) : Binary64.zero.lt x = true ↔ 0 < x.units := by
  have h0 : Binary64.zero.isNaN = false := by decide
  have hu : Binary64.zero.units = 0 := by decide
  simp [lt, compare?, h0, hx, hu, Int.compare_eq_lt]

theorem lt_zero_iff (hx : x.isNaN = false) : x.lt Binary64.zero = true ↔ x.units < 0 := by
  have h0 : Binary64.zero.isNaN = false := by decide
  have hu : Binary64.zero.units = 0 := by decide
  simp [lt, compare?, h0, hx, hu, Int.compare_eq_lt]

theorem toUInt64_ne_zero (hx : x.isIntegral = true) (hpos : Binary64.zero.lt x = true) : x.toUInt64 ≠ 0 := by
  have hnan := isNaN_of_isIntegral hx
  have hscale : (0 : ℤ) < scale := by exact_mod_cast scale_pos
  have htrunc : 0 < x.trunc := by
    have h := (zero_lt_iff hnan).1 hpos
    rw [units_of_isIntegral hx] at h
    exact pos_of_mul_pos_left h hscale.le
  refine uint_ne_zero ?_
  rw [toUInt64, toNat_ofInt]
  simp only [saturate, hnan, Bool.false_eq_true, if_false, clamp, UInt64.size]
  omega

theorem toInt64_neg_iff (hx : x.isIntegral = true) : x.toInt64 < 0 ↔ x.lt Binary64.zero = true := by
  have hnan := isNaN_of_isIntegral hx
  have hscale : (0 : ℤ) < scale := by exact_mod_cast scale_pos
  rw [Int64.lt_iff_toInt_lt, toInt_toInt64, Int64.toInt_zero,
    (saturate_sign hnan (by decide) (by decide)).2, lt_zero_iff hnan, units_of_isIntegral hx, mul_neg_iff]
  omega

end Binary64

/-! ### Nothing traps -/

namespace Num

/-- The tables are arranged so that a difference of words is only taken where it is one. -/
theorem sub_succeeds (a b : Num) : ∃ z, a.sub b = .ok z := by
  cases a with
  | real x =>
    cases b with
    | _ => exact ⟨_, rfl⟩
  | int i =>
    cases b with
    | _ => exact ⟨_, rfl⟩
  | uint u =>
    have hu := u.toNat_lt
    cases b with
    | real y => exact ⟨_, rfl⟩
    | int j =>
      have hj := j.le_toInt
      have hj' := j.toInt_lt
      rw [sub]
      split_ifs
      · exact ⟨_, ofWide_of_lt (by unfold wideEnd; omega)⟩
      · exact ⟨_, rfl⟩
    | uint w =>
      rw [sub]
      split_ifs with h
      · exact ⟨_, rfl⟩
      · exact ⟨_, difference_of_le (UInt64.not_lt.1 h)⟩

variable {a b : Num}

theorem Division.apply_succeeds {d : Division} (hd : d.Lessens) (hb : b.isIntegral = true)
    (h0 : b.isZero = false) : ∃ z, d.apply a b = .ok z := by
  cases b with
  | int j =>
    have hj : j.toInt ≠ 0 := fun h => by
      obtain rfl : j = 0 := Int32.toInt_inj.1 h
      cases h0
    cases a with
    | int i => exact ⟨_, d.onInts_of_ne i (int_ne_zero hj)⟩
    | real x => exact ⟨_, d.onInts_of_ne (d.toInt x) (int_ne_zero hj)⟩
    | uint u =>
      rw [apply]
      split_ifs
      · exact ⟨_, hd.onWide u hj⟩
      · exact ⟨_, d.onWords_of_ne u (widen_ne_zero hj)⟩
  | uint w =>
    have hw : w ≠ 0 := ne_of_beq_false h0
    cases a with
    | int i => exact ⟨_, d.onWords_of_ne (widen i) hw⟩
    | real x => exact ⟨_, d.onWords_of_ne (d.toWord x) hw⟩
    | uint u => exact ⟨_, d.onWords_of_ne u hw⟩
  | real y =>
    have hy := int_ne_zero (toInt32_ne_zero hb h0)
    cases a with
    | int i => exact ⟨_, d.onInts_of_ne i hy⟩
    | real x => exact ⟨_, d.onInts_of_ne (d.toInt x) hy⟩
    | uint u =>
      rw [apply]
      split_ifs with hpos
      · exact ⟨_, d.onWords_of_ne u (toUInt64_ne_zero hb hpos)⟩
      · exact ⟨_, hd.onWide u (toInt64_ne_zero hb h0)⟩

end Num

/-! ### Kinds of errors -/

def Num.isFractional : Num → Bool
  | .real x => x.isNaN || decide (x.units ≠ x.floor * scale)
  | _ => false

def Num.isNegative : Num → Bool
  | .int i => decide (i < 0)
  | .uint _ => false
  | .real x => x.lt .zero

namespace Operator

def divides : Operator → Bool
  | .rem | .idiv => true
  | _ => false

def shifts : Operator → Bool
  | .shl | .shr => true
  | _ => false

/-- Whether the left operand has to be whole. Integer division floors it instead. -/
def wantsWholeLeft : Operator → Bool
  | .rem | .shl | .shr | .and | .or | .xor => true
  | .add | .sub | .mul | .div | .idiv => false

def wantsWholeRight (op : Operator) : Bool := op.wantsWholeLeft || op.divides

/-- The kind of error that an operator fails with on two numbers, in the order of the checks. -/
def onNumbersFault? (op : Operator) (x y : Num) : Option FaultKind :=
  if op.wantsWholeLeft && x.isFractional || op.wantsWholeRight && y.isFractional then some .unspecified
  else if op.divides && y.isZero then some .divideByZero
  else if op.shifts && y.isNegative then some .misc
  else none

/-- The kind of error that an operator fails with. Strings can be added, and `|` takes its right side
over where the left one is undefined. -/
def fault? (op : Operator) (a b : Value) : Option FaultKind :=
  match op, a, b with
  | .add, .string _, .string _ => none
  | .or, .undefined, _ => none
  | op, a, b =>
    match a.num?, b.num? with
    | some x, some y => op.onNumbersFault? x y
    | _, _ => some .type

end Operator

/-- The result is there if no kind of error is told, else it is an error of that kind. -/
def FaultKind.Tells {α : Type} (told : Option FaultKind) (r : Except Fault α) : Prop :=
  match told with
  | none => ∃ z, r = .ok z
  | some k => ∃ e, r = .error e ∧ e.kind = k ∧ e ≠ .crash

theorem FaultKind.Tells.map {α β : Type} {told : Option FaultKind} {r : Except Fault α}
    (h : Tells told r) (f : α → β) : Tells told (r.map f) := by
  cases told with
  | none =>
    obtain ⟨z, rfl⟩ := h
    exact ⟨f z, rfl⟩
  | some k =>
    obtain ⟨e, rfl, hk⟩ := h
    exact ⟨e, rfl, hk⟩

namespace FaultKind
variable {α : Type}

theorem tells_undecided (what : String) : Tells (some .unspecified) (.error (.undecided what) : Except Fault α) :=
  ⟨_, rfl, rfl, nofun⟩

theorem tells_divideByZero : Tells (some .divideByZero) (.error .divideByZero : Except Fault α) :=
  ⟨_, rfl, rfl, nofun⟩

theorem tells_negativeShift : Tells (some .misc) (.error .negativeShift : Except Fault α) := ⟨_, rfl, rfl, nofun⟩

theorem tells_badOperands (verb : String) : Tells (some .type) (.error (.badOperands verb) : Except Fault α) :=
  ⟨_, rfl, rfl, nofun⟩

end FaultKind

namespace Num

open FaultKind

variable {x y : Num}

@[simp] theorem isFractional_eq (x : Num) : x.isFractional = !x.isIntegral := by
  cases x with
  | int | uint => rfl
  | real x =>
    rw [Bool.eq_iff_iff, Bool.not_eq_true', ← Bool.not_eq_true]
    simp only [isFractional, isIntegral, isIntegral_iff_floor, Bool.or_eq_true, decide_eq_true_iff]
    cases x.isNaN <;> simp

theorem rem_tells (x y : Num) : Tells (Operator.rem.onNumbersFault? x y) (x.rem y) := by
  simp only [Operator.onNumbersFault?, Operator.wantsWholeRight, Operator.wantsWholeLeft, Operator.divides,
    Operator.shifts, isFractional_eq, rem]
  cases hx : x.isIntegral with
  | false => exact tells_undecided _
  | true =>
    cases hy : y.isIntegral with
    | false => exact tells_undecided _
    | true =>
      cases h0 : y.isZero with
      | true => exact tells_divideByZero
      | false => exact Division.apply_succeeds lessens_remainder hy h0

theorem idiv_tells (x y : Num) : Tells (Operator.idiv.onNumbersFault? x y) (x.idiv y) := by
  simp only [Operator.onNumbersFault?, Operator.wantsWholeRight, Operator.wantsWholeLeft, Operator.divides,
    Operator.shifts, isFractional_eq, idiv]
  cases hy : y.isIntegral with
  | false => exact tells_undecided _
  | true =>
    cases h0 : y.isZero with
    | true => exact tells_divideByZero
    | false => exact Division.apply_succeeds lessens_quotient hy h0

theorem shiftBase_eq (what : String) (x : Num) : ∃ u, x.shiftBase what =
    if x.isIntegral then .ok u else .error (.undecided what) := by
  cases x with
  | int | uint => exact ⟨_, rfl⟩
  | real x => exact ⟨_, rfl⟩

theorem shiftAmount_eq (what : String) (y : Num) : ∃ n, y.shiftAmount what =
    if y.isIntegral then if y.isNegative then .error .negativeShift else .ok n
    else .error (.undecided what) := by
  cases y with
  | int j => exact ⟨j.toInt.toNat, by simp [shiftAmount, isIntegral, isNegative]⟩
  | uint w => exact ⟨_, rfl⟩
  | real y =>
    refine ⟨y.toInt64.toInt.toNat, ?_⟩
    by_cases hy : y.isIntegral = true
    · simp [shiftAmount, isIntegral, isNegative, hy, toInt64_neg_iff hy]
    · simp [shiftAmount, isIntegral, hy]

theorem shift_tells (op : Operator) (what : String) (shifted : UInt64 → Nat → UInt64)
    (hop : op.shifts = true) (x y : Num) :
    Tells (op.onNumbersFault? x y) (do
      let base ← x.shiftBase what
      let amount ← y.shiftAmount what
      return Num.uint (shifted base amount)) := by
  obtain ⟨u, hu⟩ := shiftBase_eq what x
  obtain ⟨n, hn⟩ := shiftAmount_eq what y
  have hfault : op.onNumbersFault? x y = if !x.isIntegral || !y.isIntegral then some .unspecified
      else if y.isNegative then some .misc else none := by
    simp only [Operator.onNumbersFault?, isFractional_eq]
    cases op with
    | shl | shr => rfl
    | _ => cases hop
  rw [hu, hn, hfault]
  cases x.isIntegral with
  | false => exact tells_undecided _
  | true =>
    cases y.isIntegral with
    | false => exact tells_undecided _
    | true =>
      cases y.isNegative with
      | true => exact tells_negativeShift
      | false => exact ⟨_, rfl⟩

theorem bitwise_tells (op : Operator) (symbol : String) (narrowOp : Int32 → Int32 → Int32)
    (wideOp : UInt64 → UInt64 → UInt64) (hop : op.wantsWholeLeft = true) (hdiv : op.divides = false)
    (hshift : op.shifts = false) (x y : Num) :
    Tells (op.onNumbersFault? x y) (bitwise symbol narrowOp wideOp x y) := by
  simp only [Operator.onNumbersFault?, Operator.wantsWholeRight, hop, hdiv, hshift, isFractional_eq, bitwise]
  cases hx : x.isIntegral with
  | false => exact tells_undecided _
  | true =>
    cases hy : y.isIntegral with
    | false => exact tells_undecided _
    | true => exact ⟨_, rfl⟩

end Num

namespace Operator

open FaultKind

theorem onNumbers_tells (op : Operator) (x y : Num) :
    Tells (op.onNumbersFault? x y) (op.onNumbers x y) := by
  cases op with
  | add | mul | div => exact ⟨_, rfl⟩
  | sub => exact x.sub_succeeds y
  | rem => exact x.rem_tells y
  | idiv => exact x.idiv_tells y
  | shl => exact Num.shift_tells .shl _ (fun u k => if k < 64 then u <<< k.toUInt64 else 0) rfl x y
  | shr => exact Num.shift_tells .shr _ (fun u k => if k < 64 then u >>> k.toUInt64 else 0) rfl x y
  | and => exact Num.bitwise_tells .and "&" _ _ rfl rfl rfl x y
  | or => exact Num.bitwise_tells .or "|" _ _ rfl rfl rfl x y
  | xor => exact Num.bitwise_tells .xor "^" _ _ rfl rfl rfl x y

theorem apply_tells (op : Operator) (a b : Value) : Tells (op.fault? a b) (op.apply a b) := by
  unfold fault?
  split
  · exact ⟨_, rfl⟩
  · exact ⟨_, rfl⟩
  · rename_i hstrings hundefined
    rw [apply.eq_3 _ _ _ hstrings hundefined]
    cases a.num? with
    | none => exact tells_badOperands op.verb
    | some x =>
      cases b.num? with
      | none => exact tells_badOperands op.verb
      | some y => exact (op.onNumbers_tells x y).map _

end Operator

/-- An operator on any two values fails exactly where its table of checks says so and with the kind of
error told there, never by a division by zero or an overflow, and then leaves its left operand and memory
as they were. In all other cases it succeeds; an undefined left side of `|` becomes a copy of the right. -/
theorem Memory.operate_faults (m : Memory) (op : Operator) (a b : Value) :
    (match op.fault? a b with
      | none => ∃ v m', m.operate op a b = (.ok (), v, m')
      | some k => ∃ e, e.kind = k ∧ e ≠ .crash ∧ m.operate op a b = (.error e, a, m)) ∧
    ∃ m', m.operate .or .undefined b = (.ok (), b.share, m') := by
  refine ⟨?_, _, rfl⟩
  have h := op.apply_tells a b
  cases hk : op.fault? a b with
  | none =>
    obtain ⟨v, hv⟩ := hk ▸ h
    exact ⟨v, _, by rw [operate, hv]⟩
  | some k =>
    obtain ⟨e, he, hkind, hcrash⟩ := hk ▸ h
    exact ⟨e, hkind, hcrash, by rw [operate, he]⟩

end ScriptVm
