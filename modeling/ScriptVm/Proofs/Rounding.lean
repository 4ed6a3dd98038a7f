import ScriptVm.Number.Binary64
import Mathlib.Tactic.Ring

/-! Numbers that rounding leaves alone. A word has at most 53 significant bits, so the step 2^k that
`ofUnits` would round its units to divides them already; and a number that its own step divides comes
out of `ofUnits` as it went in. A whole number is therefore some word's exactly if `ofInt` gives a word
for it, which the truncation of that word tells. -/

namespace ScriptVm

theorem div_le_roundHalfEven (num den : Nat) : num / den ≤ roundHalfEven num den := by
  simp only [roundHalfEven]
  split_ifs <;> omega

theorem roundHalfEven_le (num den : Nat) : roundHalfEven num den ≤ num / den + 1 := by
  simp only [roundHalfEven]
  split_ifs <;> omega

theorem roundHalfEven_of_dvd {num den : Nat} (hd : 0 < den) (h : den ∣ num) :
    roundHalfEven num den = num / den := by
  simp [roundHalfEven, Nat.mod_eq_zero_of_dvd h, hd]

theorem roundHalfEven_le_of_le {num den c : Nat} (hd : 0 < den) (h : num ≤ c * den) :
    roundHalfEven num den ≤ c := by
  rcases eq_or_lt_of_le h with rfl | hlt
  · rw [roundHalfEven_of_dvd hd (Nat.dvd_mul_left den c), Nat.mul_div_cancel c hd]
  · exact (roundHalfEven_le num den).trans ((Nat.div_lt_iff_lt_mul hd).2 hlt)

theorem le_roundHalfEven_of_le {num den c : Nat} (hd : 0 < den) (h : c * den ≤ num) :
    c ≤ roundHalfEven num den :=
  ((Nat.le_div_iff_mul_le hd).2 h).trans (div_le_roundHalfEven num den)

namespace Binary64

def isFinite (x : Binary64) : Bool := !x.isNaN && !x.isInfinite

theorem isFinite_iff {x : Binary64} : x.isFinite = true ↔ x.magnitude < infinityMagnitude := by
  simp only [isFinite, isNaN, isInfinite, Bool.and_eq_true, Bool.not_eq_true', decide_eq_false_iff_not]
  omega

/-- The exponent of the distance between neighbours at `u` units. -/
def spacing (u : Nat) : Nat := u.log2 - 52

theorem spacing_mono {m n : Nat} (h : m ≤ n) : spacing m ≤ spacing n := by
  rcases Nat.eq_zero_or_pos m with rfl | hm
  · exact Nat.zero_le _
  · exact Nat.sub_le_sub_right ((Nat.le_log2 (by omega)).2 ((Nat.log2_self_le hm.ne').trans h)) 52

/-- The exponent of the units in one. -/
def scaleExponent : Nat := 1074

theorem scale_eq : scale = 2 ^ scaleExponent := Nat.one_shiftLeft scaleExponent

theorem scale_pos : 0 < scale := by rw [scale_eq]; exact Nat.two_pow_pos scaleExponent

section Words

variable (b : Bool) {m r k : Nat}

theorem toNat_signed (h : m < 2 ^ 63) :
    (signed b m).bits.toNat = if b then 2 ^ 63 + m else m := by
  cases b <;> simp [signed, ofNatBits] <;> omega

theorem magnitude_signed (h : m < 2 ^ 63) : (signed b m).magnitude = m := by
  rw [magnitude, toNat_signed b h]
  cases b <;> simp <;> omega

theorem negative_signed (h : m < 2 ^ 63) : (signed b m).negative = b := by
  rw [negative, toNat_signed b h]
  cases b <;> simp; omega

/-- A word of `r` steps of 2^k. At 2^53 steps the carry makes up the next exponent. -/
theorem unitsAbs_signed (hr : r ≤ 2 ^ 53) (hk : k = 0 ∨ 2 ^ 52 ≤ r) (hm : k ≤ 2045) :
    (signed b ((k <<< 52) + r)).unitsAbs = r * 2 ^ k := by
  have hlt : (k <<< 52) + r < 2 ^ 63 := by rw [Nat.shiftLeft_eq]; omega
  simp only [unitsAbs, exponent, fraction, magnitude_signed b hlt]
  simp only [Nat.shiftLeft_eq, Nat.shiftRight_eq_div_pow, one_mul]
  -- the carry, the normal words and the subnormal ones
  obtain rfl | hr' := eq_or_lt_of_le hr
  · have he : (k * 2 ^ 52 + 2 ^ 53) / 2 ^ 52 = k + 2 := by omega
    have hf : (k * 2 ^ 52 + 2 ^ 53) % 2 ^ 52 = 0 := by omega
    rw [he, hf, if_neg (by omega), show k + 2 - 1 = k + 1 by omega, pow_succ]
    ring
  by_cases hn : 2 ^ 52 ≤ r
  · have he : (k * 2 ^ 52 + r) / 2 ^ 52 = k + 1 := by omega
    have hf : 2 ^ 52 + (k * 2 ^ 52 + r) % 2 ^ 52 = r := by omega
    rw [he, hf, if_neg (by omega), Nat.add_sub_cancel]
  · obtain rfl : k = 0 := by omega
    have he : (0 * 2 ^ 52 + r) / 2 ^ 52 = 0 := by omega
    have hf : (0 * 2 ^ 52 + r) % 2 ^ 52 = r := by omega
    rw [he, hf, if_pos rfl, pow_zero, mul_one]

end Words

theorem two_pow_spacing_dvd (x : Binary64) : 2 ^ spacing x.unitsAbs ∣ x.unitsAbs := by
  have hf : x.fraction < 2 ^ 52 := Nat.mod_lt _ (by simp)
  simp only [unitsAbs, Nat.shiftLeft_eq, one_mul]
  split_ifs with he
  · have hlog : x.fraction.log2 < 53 := by
      rcases Nat.eq_zero_or_pos x.fraction with h | h
      · rw [h]; decide
      · exact (Nat.log2_lt h.ne').2 (by omega)
    simp [spacing, show x.fraction.log2 - 52 = 0 by omega]
  · have hlog : ((2 ^ 52 + x.fraction) * 2 ^ (x.exponent - 1)).log2 = 52 + (x.exponent - 1) := by
      rw [Nat.log2_eq_iff (Nat.mul_ne_zero (by omega) (Nat.two_pow_pos _).ne')]
      constructor
      · rw [pow_add]; exact Nat.mul_le_mul_right _ (by omega)
      · rw [show 52 + (x.exponent - 1) + 1 = 53 + (x.exponent - 1) by omega, pow_add]
        exact Nat.mul_lt_mul_of_pos_right (by omega) (Nat.two_pow_pos _)
    rw [spacing, hlog, Nat.add_sub_cancel_left]
    exact Nat.dvd_mul_left _ _

/-- What rounding to the spacing leaves is within 53 bits, or their carry. -/
theorem roundHalfEven_spacing (u : Nat) : roundHalfEven u (2 ^ spacing u) ≤ 2 ^ 53 ∧
    (spacing u = 0 ∨ 2 ^ 52 ≤ roundHalfEven u (2 ^ spacing u)) := by
  have hlt : u / 2 ^ spacing u < 2 ^ 53 := by
    rw [Nat.div_lt_iff_lt_mul (Nat.two_pow_pos _), ← pow_add]
    exact Nat.lt_log2_self.trans_le (Nat.pow_le_pow_right (by omega) (by unfold spacing; omega))
  refine ⟨(roundHalfEven_le _ _).trans hlt, ?_⟩
  by_cases hs : u.log2 ≤ 52
  · exact .inl (Nat.sub_eq_zero_of_le hs)
  · have hu : u ≠ 0 := by rintro rfl; simp at hs
    refine .inr (le_trans ?_ (div_le_roundHalfEven _ _))
    rw [Nat.le_div_iff_mul_le (Nat.two_pow_pos _), ← pow_add, show 52 + spacing u = u.log2 by unfold spacing; omega]
    exact Nat.log2_self_le hu

theorem ofUnits_of_lt (b : Bool) (hu : u.log2 < 2097) :
    (ofUnits b u 1).unitsAbs = roundHalfEven u (2 ^ spacing u) * 2 ^ spacing u ∧
      (ofUnits b u 1).negative = b ∧ (ofUnits b u 1).isFinite = true := by
  obtain ⟨hr, hk⟩ := roundHalfEven_spacing u
  have hs : spacing u ≤ 2044 := by unfold spacing; omega
  have hlt : (spacing u <<< 52) + roundHalfEven u (2 ^ spacing u) < infinityMagnitude := by
    rw [Nat.shiftLeft_eq, infinityMagnitude]; omega
  have hb : (spacing u <<< 52) + roundHalfEven u (2 ^ spacing u) < 2 ^ 63 :=
    hlt.trans (by rw [infinityMagnitude]; omega)
  have ho : ofUnits b u 1 = signed b ((spacing u <<< 52) + roundHalfEven u (2 ^ spacing u)) := by
    simp only [ofUnits, Nat.div_one, Nat.one_shiftLeft]
    exact congrArg _ (min_eq_left hlt.le)
  rw [ho, isFinite_iff, magnitude_signed b hb]
  exact ⟨unitsAbs_signed b hr hk (by omega), negative_signed b hb, hlt⟩

/-! ### Rounding past a word

A word is a multiple of every spacing up to its own. So no number is rounded past a word: one below it
stays at or below, and one above at or above. -/

section Past

variable {u : Nat} {x : Binary64} (b : Bool) (hu : u.log2 < 2097)
include hu

theorem ofUnits_le_of_le (h : u ≤ x.unitsAbs) : (ofUnits b u 1).unitsAbs ≤ x.unitsAbs := by
  obtain ⟨c, hc⟩ := (pow_dvd_pow 2 (spacing_mono h)).trans (two_pow_spacing_dvd x)
  rw [(ofUnits_of_lt b hu).1]
  rw [hc, Nat.mul_comm] at h ⊢
  exact Nat.mul_le_mul_left _ (roundHalfEven_le_of_le (Nat.two_pow_pos _) h)

theorem le_ofUnits_of_le (h : x.unitsAbs ≤ u) : x.unitsAbs ≤ (ofUnits b u 1).unitsAbs := by
  rw [(ofUnits_of_lt b hu).1]
  rcases eq_or_lt_of_le (spacing_mono h) with hs | hs
  · obtain ⟨c, hc⟩ := hs ▸ two_pow_spacing_dvd x
    rw [hc, Nat.mul_comm] at h ⊢
    exact Nat.mul_le_mul_right _ (le_roundHalfEven_of_le (Nat.two_pow_pos _) h)
  · -- the word is below the power of two under `u`, and that is a word too
    have hx : x.unitsAbs < 2 ^ (52 + spacing u) :=
      Nat.lt_log2_self.trans_le (Nat.pow_le_pow_right (by omega) (by unfold spacing at hs ⊢; omega))
    have hr := (roundHalfEven_spacing u).2.resolve_left (by omega)
    calc x.unitsAbs ≤ 2 ^ 52 * 2 ^ spacing u := by rw [← pow_add]; exact hx.le
      _ ≤ _ := Nat.mul_le_mul_right _ hr

end Past

/-! ### Whole numbers -/

theorem log2_mul_scale {m : Nat} (h : m ≠ 0) : (m * scale).log2 = m.log2 + scaleExponent := by
  rw [scale_eq, Nat.log2_eq_iff (Nat.mul_ne_zero h (Nat.two_pow_pos _).ne'), pow_add,
    Nat.add_right_comm, pow_add _ (m.log2 + 1)]
  exact ⟨Nat.mul_le_mul_right _ (Nat.log2_self_le h),
    Nat.mul_lt_mul_of_pos_right Nat.lt_log2_self (Nat.two_pow_pos _)⟩

theorem log2_mul_scale_lt {m : Nat} (h : m < 2 ^ 64) : (m * scale).log2 < 2097 := by
  by_cases h0 : m = 0
  · rw [h0, Nat.zero_mul]; decide
  · have := (Nat.log2_lt h0).2 h
    rw [log2_mul_scale h0, scaleExponent]
    omega

theorem spacing_le {m : Nat} (h : m < 2 ^ 53) : spacing (m * scale) ≤ scaleExponent := by
  by_cases h0 : m = 0
  · rw [h0, Nat.zero_mul]; decide
  · have := (Nat.log2_lt h0).2 h
    rw [spacing, log2_mul_scale h0]
    omega

theorem le_spacing {m : Nat} (h : 2 ^ 53 ≤ m) : scaleExponent ≤ spacing (m * scale) := by
  have h0 : m ≠ 0 := by omega
  have := (Nat.le_log2 h0).2 h
  rw [spacing, log2_mul_scale h0]
  omega

theorem natAbs_units (x : Binary64) : x.units.natAbs = x.unitsAbs := by
  unfold units
  split <;> simp

theorem unitsAbs_of_units {x : Binary64} {n : Int} (h : x.units = n * scale) :
    x.unitsAbs = n.natAbs * scale := by
  rw [← natAbs_units, h, Int.natAbs_mul, Int.natAbs_natCast]

theorem trunc_of_units {x : Binary64} {n : Int} (h : x.units = n * scale) : x.trunc = n := by
  rw [trunc, h, Int.mul_tdiv_cancel _ (by exact_mod_cast scale_pos.ne')]

theorem units_of_dvd {x : Binary64} (h : scale ∣ x.unitsAbs) : x.units = x.trunc * scale := by
  have hd : (scale : Int) ∣ x.units := by rwa [Int.natCast_dvd, natAbs_units]
  exact (Int.tdiv_mul_cancel hd).symm

theorem isIntegral_iff {x : Binary64} (h : x.isFinite = true) :
    x.isIntegral = true ↔ scale ∣ x.unitsAbs := by
  have hn : x.isNaN = false := by simp_all [isFinite]
  simp [isIntegral, hn, Nat.dvd_iff_mod_eq_zero]

theorem isNaN_of_isIntegral {x : Binary64} (h : x.isIntegral = true) : x.isNaN = false := by
  simp only [isIntegral, Bool.and_eq_true, Bool.not_eq_true'] at h
  exact h.1

theorem units_of_isIntegral {x : Binary64} (h : x.isIntegral = true) : x.units = x.trunc * scale := by
  simp only [isIntegral, Bool.and_eq_true, decide_eq_true_iff] at h
  exact units_of_dvd (Nat.dvd_of_mod_eq_zero h.2)

theorem saturate_of_mem {x : Binary64} {lo hi n : Int} (hx : x.isNaN = false) (h0 : lo ≤ n) (h1 : n ≤ hi) :
    x.saturate lo hi n = n := by
  simp only [saturate, hx, clamp, Bool.false_eq_true, if_false]
  omega

section Whole

variable {n : Int} (hn : n.natAbs < 2 ^ 64)
include hn

theorem ofInt_of_lt : (ofInt n).unitsAbs = roundHalfEven (n.natAbs * scale)
      (2 ^ spacing (n.natAbs * scale)) * 2 ^ spacing (n.natAbs * scale) ∧
    (ofInt n).negative = decide (n < 0) ∧ (ofInt n).isFinite = true :=
  ofUnits_of_lt _ (log2_mul_scale_lt hn)

theorem units_ofInt_of_dvd (hd : 2 ^ spacing (n.natAbs * scale) ∣ n.natAbs * scale) :
    (ofInt n).units = n * scale := by
  obtain ⟨hu, hs, -⟩ := ofInt_of_lt hn
  rw [roundHalfEven_of_dvd (Nat.two_pow_pos _) hd, Nat.div_mul_cancel hd] at hu
  rw [units, hs, hu, Int.natCast_mul]
  by_cases h : n < 0
  · rw [if_pos (decide_eq_true h), Int.ofNat_natAbs_of_nonpos h.le, Int.neg_mul, Int.neg_neg]
  · rw [if_neg (by simpa using h), Int.natAbs_of_nonneg (not_lt.1 h)]

/-- A whole number that some word denotes is denoted by its own rounding. -/
theorem units_ofInt_of_units {x : Binary64} (h : x.units = n * scale) : (ofInt n).units = n * scale :=
  units_ofInt_of_dvd hn (unitsAbs_of_units h ▸ two_pow_spacing_dvd x)

omit hn in
theorem units_ofInt_of_lt (h : n.natAbs < 2 ^ 53) : (ofInt n).units = n * scale := by
  refine units_ofInt_of_dvd (by omega) ((pow_dvd_pow 2 (spacing_le h)).trans ?_)
  rw [← scale_eq]
  exact Nat.dvd_mul_left _ _

/-- The truncation tells whether anything was lost. Beyond 53 bits the rounding is a whole number
again, so nothing is truncated. -/
theorem units_ofInt_of_trunc (h : (ofInt n).trunc = n) : (ofInt n).units = n * scale := by
  by_cases hb : n.natAbs < 2 ^ 53
  · exact units_ofInt_of_lt hb
  have hs := pow_dvd_pow 2 (le_spacing (not_lt.1 hb))
  rw [← scale_eq] at hs
  have hd : scale ∣ (ofInt n).unitsAbs := by
    rw [(ofInt_of_lt hn).1]
    exact Dvd.dvd.mul_left hs _
  rw [units_of_dvd hd, h]

end Whole

/-- An infinity is integral, and its truncation is out of every range. -/
theorem le_natAbs_trunc {x : Binary64} (h : x.isInfinite = true) : 2 ^ 64 ≤ x.trunc.natAbs := by
  have hm : x.magnitude = infinityMagnitude := of_decide_eq_true h
  have he : x.exponent = 2047 := by rw [exponent, hm]; decide
  have hu : x.unitsAbs = ((1 <<< 52) + x.fraction) * 2 ^ (x.exponent - 1) := by
    rw [unitsAbs, if_neg (by omega), Nat.shiftLeft_eq]
  have ht : x.trunc.natAbs = x.unitsAbs / scale := by
    rw [trunc, Int.natAbs_tdiv, natAbs_units, Int.natAbs_natCast]
    rfl
  rw [ht, Nat.le_div_iff_mul_le scale_pos, hu, scale_eq, ← pow_add]
  calc 2 ^ (64 + scaleExponent) ≤ 2 ^ (x.exponent - 1) :=
        Nat.pow_le_pow_right (by decide) (by rw [he]; decide)
    _ ≤ _ := Nat.le_mul_of_pos_left _ (by omega)

end Binary64
end ScriptVm
