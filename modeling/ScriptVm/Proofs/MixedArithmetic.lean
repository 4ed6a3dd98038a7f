import ScriptVm.Proofs.NumericOrder
import ScriptVm.Proofs.OperatorFaults

/-! Sums, differences and products of an int and a real. Which kind comes out depends on the real alone:
a whole one is brought to the width of the int, any other brings the int to a real. Beyond the ints a
whole real comes to the nearest of them, so the wrapping arithmetic that follows is that of this nearest
int. A product with the real on the left is worked out among the reals and brought back from there: it
does not wrap at all, but comes to the int nearest to the exact product. -/

namespace ScriptVm

open Binary64

/-- The int nearest to a whole number: the number itself, or the end of the ints that it is beyond. -/
def nearestInt (n : ℤ) : ℤ := clamp Int32.minValue.toInt Int32.maxValue.toInt n

theorem nearestInt_of_mem {n : ℤ} (h0 : -2 ^ 31 ≤ n) (h1 : n < 2 ^ 31) : nearestInt n = n := by
  simp only [nearestInt, clamp, Int32.toInt_minValue, Int32.toInt_maxValue]
  omega

/-- The kinds that work in the width of an int. -/
def Value.narrow? : Value → Option ℤ
  | .bool b => some (if b then 1 else 0)
  | .int i => some i.toInt
  | _ => none

theorem Value.num?_of_narrow? {v : Value} {m : ℤ} (h : v.narrow? = some m) :
    ∃ i : Int32, v.num? = some (.int i) ∧ i.toInt = m := by
  cases v with
  | bool b =>
    refine ⟨_, rfl, ?_⟩
    rw [← Option.some.inj h]
    cases b <;> rfl
  | int i => exact ⟨i, rfl, Option.some.inj h⟩
  | _ => cases h

/-! ### Whole reals -/

namespace Binary64

variable {x : Binary64} {m n : ℤ}

theorem isIntegral_of_number? (h : x.number? = some (n : ℚ)) : x.isIntegral = true ∧ x.trunc = n := by
  obtain ⟨hf, hu⟩ := number?_eq_whole.1 h
  refine ⟨(isIntegral_iff hf).2 ?_, trunc_of_units hu⟩
  rw [unitsAbs_of_units hu]
  exact Nat.dvd_mul_left _ _

theorem number?_of_isIntegral (hf : x.isFinite = true) (hx : x.isIntegral = true) :
    x.number? = some (x.trunc : ℚ) :=
  number?_eq_whole.2 ⟨hf, units_of_isIntegral hx⟩

theorem isIntegral_of_isInfinite (h : x.isInfinite = true) : x.isIntegral = true := by
  have hdvd : scale ∣ x.unitsAbs := by
    rw [unitsAbs_infinite h, scale_eq, limit]
    exact pow_dvd_pow 2 (Nat.le_add_left _ _)
  simp [isIntegral, isNaN_of_isInfinite h, Nat.mod_eq_zero_of_dvd hdvd]

theorem toInt32_of_number? (h : x.number? = some (n : ℚ)) : x.toInt32.toInt = nearestInt n := by
  obtain ⟨hx, ht⟩ := isIntegral_of_number? h
  rw [toInt_toInt32, saturate, isNaN_of_isIntegral hx, ht]
  rfl

theorem isFinite_ofInt (hm : m.natAbs < 2 ^ 53) : (ofInt m).isFinite = true :=
  (ofInt_of_lt (by omega)).2.2

/-- The sign bit goes with the number; a zero may have either. -/
theorem eq_sign_mul_natAbs (h : x.units = n * scale) : n = (if x.negative then -1 else 1) * n.natAbs := by
  have hs : (scale : ℤ) ≠ 0 := by exact_mod_cast scale_pos.ne'
  have hu : x.units = (if x.negative then -1 else 1) * (x.unitsAbs : ℤ) := by
    unfold units
    split <;> ring
  rw [unitsAbs_of_units h, h, Nat.cast_mul, ← mul_assoc] at hu
  exact mul_right_cancel₀ hs hu

end Binary64

/-! ### Rounded products -/

theorem roundHalfEven_mul_right (num den : Nat) {c : Nat} (hc : 0 < c) :
    roundHalfEven (num * c) (den * c) = roundHalfEven num den := by
  have hr : num * c % (den * c) = num % den * c := Nat.mul_mod_mul_right c num den
  simp only [roundHalfEven, Nat.mul_div_mul_right num den hc, hr, ← mul_assoc, Nat.mul_lt_mul_right hc]

namespace Binary64

variable (b : Bool) {x : Binary64} {m n : ℤ}

theorem ofUnits_mul_right (u : Nat) {den : Nat} (hd : 0 < den) : ofUnits b (u * den) den = ofUnits b u 1 := by
  have hshift : ∀ k, den <<< k = (1 <<< k) * den := fun k => by simp only [Nat.shiftLeft_eq]; ring
  simp only [ofUnits, Nat.mul_div_cancel u hd, Nat.div_one, hshift, roundHalfEven_mul_right u _ hd]

/-- A product of whole numbers is their exact product, rounded once. -/
theorem mul_ofInt (hx : x.number? = some (n : ℚ)) (hm : m.natAbs < 2 ^ 53) :
    x.mul (ofInt m) = ofUnits (x.negative != (ofInt m).negative) ((n * m).natAbs * scale) 1 := by
  obtain ⟨hf, hu⟩ := number?_eq_whole.1 hx
  have hf' := isFinite_ofInt hm
  have hunits : x.unitsAbs * (ofInt m).unitsAbs = (n * m).natAbs * scale * scale := by
    rw [unitsAbs_of_units hu, unitsAbs_of_units (units_ofInt_of_lt hm), Int.natAbs_mul]
    ring
  simp only [isFinite, Bool.and_eq_true, Bool.not_eq_true'] at hf hf'
  rw [mul, propagate, hf.1, hf'.1, hf.2, hf'.2, hunits]
  exact ofUnits_mul_right _ _ scale_pos

theorem units_ofUnits_of_lt {k : Nat} (hk : k < 2 ^ 53) :
    (ofUnits b (k * scale) 1).units = (if b then -1 else 1) * k * scale ∧
      (ofUnits b (k * scale) 1).isFinite = true := by
  obtain ⟨hu, hb, hf⟩ := ofUnits_of_lt b (log2_mul_scale_lt (m := k) (by omega))
  have hd : 2 ^ spacing (k * scale) ∣ k * scale := by
    refine (pow_dvd_pow 2 (spacing_le hk)).trans ?_
    rw [← scale_eq]
    exact Nat.dvd_mul_left _ _
  rw [roundHalfEven_of_dvd (Nat.two_pow_pos _) hd, Nat.div_mul_cancel hd] at hu
  refine ⟨?_, hf⟩
  rw [units, hb, hu]
  cases b <;> push_cast <;> simp

/-- Rounding leaves a number that is far from zero far from zero, on its side, also where it comes to an
infinity. -/
theorem ofUnits_of_le {u : Nat} (hu : 2 ^ (53 + scaleExponent) ≤ u) :
    (ofUnits b u 1).isNaN = false ∧ (ofUnits b u 1).negative = b ∧
      2 ^ (53 + scaleExponent) ≤ (ofUnits b u 1).unitsAbs := by
  have hu0 : u ≠ 0 := (Nat.two_pow_pos _).trans_le hu |>.ne'
  have hlog : 53 + scaleExponent ≤ u.log2 := (Nat.le_log2 hu0).2 hu
  have hk : 1075 ≤ spacing u := by unfold spacing scaleExponent at *; omega
  have hr := (roundHalfEven_spacing u).2.resolve_left (by omega)
  have ho : ofUnits b u 1 = signed b
      (min ((spacing u <<< 52) + roundHalfEven u (2 ^ spacing u)) infinityMagnitude) := by
    simp only [ofUnits, Nat.div_one, Nat.one_shiftLeft]
    rfl
  generalize hmag : min ((spacing u <<< 52) + roundHalfEven u (2 ^ spacing u)) infinityMagnitude = g at ho
  have hlo : 1076 * 2 ^ 52 ≤ g := by
    rw [← hmag, Nat.shiftLeft_eq, infinityMagnitude]
    omega
  have hhi : g ≤ infinityMagnitude := hmag ▸ min_le_right _ _
  have hlt : g < 2 ^ 63 := hhi.trans_lt (by decide)
  have hexp : 1076 ≤ (signed b g).exponent := by
    rw [exponent, magnitude_signed b hlt, Nat.shiftRight_eq_div_pow]
    omega
  rw [ho]
  refine ⟨?_, negative_signed b hlt, ?_⟩
  · rw [isNaN, magnitude_signed b hlt]
    exact decide_eq_false hhi.not_gt
  · rw [unitsAbs, if_neg (by omega), Nat.shiftLeft_eq]
    have hexp' : 1 + scaleExponent ≤ (signed b g).exponent - 1 := by rw [scaleExponent]; omega
    calc 2 ^ (53 + scaleExponent) = 2 ^ 52 * 2 ^ (1 + scaleExponent) := by rw [← pow_add, ← add_assoc]
      _ ≤ ((1 <<< 52) + (signed b g).fraction) * 2 ^ ((signed b g).exponent - 1) :=
        Nat.mul_le_mul (by omega) (Nat.pow_le_pow_right Nat.two_pos hexp')

/-- Rounding a whole number to a real does not change the int nearest to it. Up to 53 bits nothing is
rounded; beyond, the number is past the ends of the ints before and after. -/
theorem toInt32_ofUnits (k : Nat) :
    (ofUnits b (k * scale) 1).toInt32.toInt = nearestInt ((if b then -1 else 1) * k) := by
  by_cases hk : k < 2 ^ 53
  · obtain ⟨hu, hf⟩ := units_ofUnits_of_lt b hk
    exact toInt32_of_number? (number?_eq_whole.2 ⟨hf, hu⟩)
  have hle : 2 ^ (53 + scaleExponent) ≤ k * scale := by
    rw [pow_add, ← scale_eq]
    exact Nat.mul_le_mul_right _ (not_lt.1 hk)
  obtain ⟨hnan, hb, habs⟩ := ofUnits_of_le b hle
  have htrunc : 2 ^ 53 ≤ (ofUnits b (k * scale) 1).unitsAbs / scale := by
    rw [Nat.le_div_iff_mul_le scale_pos]
    calc 2 ^ 53 * scale = 2 ^ (53 + scaleExponent) := by rw [scale_eq, pow_add]
      _ ≤ _ := habs
  rw [toInt_toInt32, saturate, hnan, trunc, units, hb]
  cases b with
  | false =>
    have ht : ((ofUnits false (k * scale) 1).unitsAbs : ℤ).tdiv scale =
        ((ofUnits false (k * scale) 1).unitsAbs / scale : Nat) := rfl
    simp only [Bool.false_eq_true, if_false, ht, nearestInt, clamp, Int32.toInt_minValue, Int32.toInt_maxValue]
    omega
  | true =>
    have ht : (-((ofUnits true (k * scale) 1).unitsAbs : ℤ)).tdiv scale =
        -(((ofUnits true (k * scale) 1).unitsAbs / scale : Nat) : ℤ) := Int.neg_tdiv _ _
    simp only [if_true, Bool.false_eq_true, if_false, ht, nearestInt, clamp, Int32.toInt_minValue,
      Int32.toInt_maxValue]
    omega

theorem toInt32_mul_ofInt (hx : x.number? = some (n : ℚ)) (hm : m.natAbs < 2 ^ 53) :
    (x.mul (ofInt m)).toInt32.toInt = nearestInt (n * m) := by
  have hn := eq_sign_mul_natAbs (number?_eq_whole.1 hx).2
  have hm' := eq_sign_mul_natAbs (units_ofInt_of_lt hm)
  have hsign : (if (x.negative != (ofInt m).negative) = true then -1 else 1) * ((n * m).natAbs : ℤ) = n * m := by
    generalize x.negative = b at hn ⊢
    generalize (ofInt m).negative = c at hm' ⊢
    rw [Int.natAbs_mul, Nat.cast_mul]
    generalize (n.natAbs : ℤ) = p at hn ⊢
    generalize (m.natAbs : ℤ) = q at hm' ⊢
    rw [hn, hm']
    cases b <;> cases c <;> simp
  rw [mul_ofInt hx hm, toInt32_ofUnits, hsign]

end Binary64

/-! ### The rows of the tables -/

namespace Operator

variable {op : Operator} {f : ℤ → ℤ → ℤ} {a : Value} {m : ℤ}

def isArithmetic : Operator → Bool
  | .add | .sub | .mul => true
  | _ => false

/-- The real decides the kind of the result, and among the ints it stands for its own nearest. -/
theorem onNumbers_int_real (hop : op.isArithmetic = true) (hf : op.onIntegers? = some f) (i : Int32)
    (x : Binary64) : ∃ narrowOp wideOp y, Reduces f narrowOp wideOp ∧
      op.onNumbers (.int i) (.real x) = .ok (if x.isIntegral then .int (narrowOp i x.toInt32) else .real y) := by
  cases op with
  | add => obtain rfl := Option.some.inj hf; exact ⟨_, _, _, reduces_add, rfl⟩
  | sub => obtain rfl := Option.some.inj hf; exact ⟨_, _, _, reduces_sub, rfl⟩
  | mul => obtain rfl := Option.some.inj hf; exact ⟨_, _, _, reduces_mul, rfl⟩
  | _ => cases hop

/-- Beside it, the row of the product goes another way. -/
theorem onNumbers_real_int (hop : op.isArithmetic = true) (hmul : op ≠ .mul) (hf : op.onIntegers? = some f)
    (x : Binary64) (i : Int32) : ∃ narrowOp wideOp y, Reduces f narrowOp wideOp ∧
      op.onNumbers (.real x) (.int i) = .ok (if x.isIntegral then .int (narrowOp x.toInt32 i) else .real y) := by
  cases op with
  | add => obtain rfl := Option.some.inj hf; exact ⟨_, _, _, reduces_add, rfl⟩
  | sub => obtain rfl := Option.some.inj hf; exact ⟨_, _, _, reduces_sub, rfl⟩
  | mul => cases hmul rfl
  | _ => cases hop

theorem mul_real_int (x : Binary64) (i : Int32) : Operator.mul.onNumbers (.real x) (.int i) =
    .ok (if x.isIntegral then .int (x.mul (ofInt i.toInt)).toInt32 else .real (x.mul (ofInt i.toInt))) := rfl

/-- A result is an int or a real as the real operand is integral or not. -/
theorem onNumbers_kind (hop : op.isArithmetic = true) (i : Int32) (x : Binary64) :
    (∃ j y, op.onNumbers (.int i) (.real x) = .ok (if x.isIntegral then .int j else .real y)) ∧
      ∃ j y, op.onNumbers (.real x) (.int i) = .ok (if x.isIntegral then .int j else .real y) := by
  cases op with
  | add | sub | mul => exact ⟨⟨_, _, rfl⟩, _, _, rfl⟩
  | _ => cases hop

/-- Sums, differences and products of a truth value or an int with a real. Beside a whole real they are
ints and congruent to the exact result, as long as the real is itself an int: beyond, it counts as the
int nearest to it. With the real on the left a product does not wrap, but ends at the ends of the ints.
Beside a NaN or a real with a fraction they are reals. An infinity passes for a whole number. -/
theorem apply_mixed (hop : op.isArithmetic = true) (hf : op.onIntegers? = some f) (ha : a.narrow? = some m)
    (x : Binary64) :
    (∀ n : ℤ, x.number? = some (n : ℚ) →
      (∃ i, op.apply a (.real x) = .ok (.int i) ∧ i.toInt ≡ f m (nearestInt n) [ZMOD 2 ^ 32]) ∧
      (∃ i, op.apply (.real x) a = .ok (.int i) ∧
        if op = .mul then i.toInt = nearestInt (n * m) else i.toInt ≡ f (nearestInt n) m [ZMOD 2 ^ 32])) ∧
    (x.isInfinite = false → (∀ n : ℤ, x.number? ≠ some (n : ℚ)) →
      (∃ y, op.apply a (.real x) = .ok (.real y)) ∧ ∃ y, op.apply (.real x) a = .ok (.real y)) ∧
    (x.isInfinite = true →
      (∃ i, op.apply a (.real x) = .ok (.int i)) ∧ ∃ i, op.apply (.real x) a = .ok (.int i)) := by
  obtain ⟨i, hi, rfl⟩ := Value.num?_of_narrow? ha
  rw [apply_of_num? op hi (rfl : (Value.real x).num? = some (.real x)),
    apply_of_num? op (rfl : (Value.real x).num? = some (.real x)) hi]
  obtain ⟨⟨j, y, hleft⟩, k, z, hright⟩ := onNumbers_kind hop i x
  refine ⟨fun n hn => ⟨?_, ?_⟩, fun hinf hnone => ?_, fun hinf => ?_⟩
  · obtain ⟨narrowOp, wideOp, y, hred, hrow⟩ := onNumbers_int_real hop hf i x
    rw [hrow, (isIntegral_of_number? hn).1]
    refine ⟨_, rfl, hred.int (int_eq i) ?_⟩
    rw [← toInt32_of_number? hn]
    exact int_eq _
  · by_cases hmul : op = .mul
    · subst hmul
      have h0 := i.le_toInt
      have h1 := i.toInt_lt
      rw [mul_real_int, (isIntegral_of_number? hn).1]
      refine ⟨_, rfl, ?_⟩
      rw [if_pos rfl]
      exact toInt32_mul_ofInt hn (by omega)
    · obtain ⟨narrowOp, wideOp, y, hred, hrow⟩ := onNumbers_real_int hop hmul hf x i
      rw [hrow, (isIntegral_of_number? hn).1]
      refine ⟨_, rfl, ?_⟩
      rw [if_neg hmul]
      refine hred.int ?_ (int_eq i)
      rw [← toInt32_of_number? hn]
      exact int_eq _
  · have hx : x.isIntegral = false := by
      by_contra h
      rw [Bool.not_eq_false] at h
      refine hnone x.trunc (number?_of_isIntegral ?_ h)
      rw [isFinite, isNaN_of_isIntegral h, hinf]
      rfl
    rw [hleft, hright, hx]
    exact ⟨⟨y, rfl⟩, z, rfl⟩
  · rw [hleft, hright, isIntegral_of_isInfinite hinf]
    exact ⟨⟨j, rfl⟩, k, rfl⟩

/-- The lowest int as a real is still an int: what is left of one after it wraps. Its product with -1, if
that is the real, does not; and a half makes a sum a real. -/
theorem apply_mixed_lowest :
    ((∃ i, Operator.sub.apply (.bool true) (.real (ofInt (-2 ^ 31))) = .ok (.int i) ∧
        i.toInt ≡ 1 - nearestInt (-2 ^ 31) [ZMOD 2 ^ 32]) ∧
      nearestInt (-2 ^ 31) = -2 ^ 31 ∧
      Operator.sub.apply (.bool true) (.real (ofInt (-2 ^ 31))) = .ok (.int (-2147483647))) ∧
    (∃ i, Operator.mul.apply (.real (ofInt (-1))) (.int Int32.minValue) = .ok (.int i) ∧
      if Operator.mul = .mul then i.toInt = nearestInt (-1 * -2 ^ 31)
        else i.toInt ≡ nearestInt (-1) * -2 ^ 31 [ZMOD 2 ^ 32]) ∧
    (∃ y, Operator.add.apply (.int 1) (.real .half) = .ok (.real y)) := by
  have hlowest : (ofInt (-2 ^ 31)).number? = some ((-2 ^ 31 : ℤ) : ℚ) :=
    Value.number?_ofInt (by decide) (units_ofInt_of_lt (by decide))
  have hminus : (ofInt (-1)).number? = some ((-1 : ℤ) : ℚ) :=
    Value.number?_ofInt (by decide) (units_ofInt_of_lt (by decide))
  have hhalf : ∀ n : ℤ, half.number? ≠ some (n : ℚ) := fun n hn =>
    absurd (isIntegral_of_number? hn).1 (by decide +kernel)
  exact ⟨⟨((apply_mixed rfl rfl rfl _).1 _ hlowest).1, nearestInt_of_mem le_rfl (by decide), by decide +kernel⟩,
    ((apply_mixed rfl rfl rfl _).1 _ hminus).2,
    ((apply_mixed rfl rfl rfl _).2.1 (by decide) hhalf).1⟩

/-- Neither the square of 2^16, as a real on the left, nor 2^31 as a real wraps, and beside an infinity a
sum is an int. -/
theorem mixed_saturates :
    (Operator.mul.apply (.real (ofInt (2 ^ 16))) (.int 65536) = .ok (.int Int32.maxValue) ∧
      ¬Int32.maxValue.toInt ≡ 2 ^ 16 * 65536 [ZMOD 2 ^ 32]) ∧
    (Operator.add.apply (.int 0) (.real (ofInt (2 ^ 31))) = .ok (.int Int32.maxValue) ∧
      ¬Int32.maxValue.toInt ≡ 0 + 2 ^ 31 [ZMOD 2 ^ 32]) ∧
    Operator.add.apply (.int 5) (.real .infinity) = .ok (.int (5 + Int32.maxValue)) := by
  decide +kernel

end Operator
end ScriptVm
