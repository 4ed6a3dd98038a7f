import ScriptVm.Value.Order
import ScriptVm.Proofs.ExactCasts
import Mathlib

/-! The order of numbers of different kinds. Every number is placed on one line, the rationals between
two infinities, and comparison is read off that line. The one thing that is not exact is a uint64 beside
a real: it is rounded to a real first. Rounding goes past no real, so the only harm it does is to put a
uint64 level with the real it is rounded to. That is enough to break transitivity. -/

namespace ScriptVm

open Binary64

/-! ### The line of numbers -/

/-- The rationals and both infinities. -/
abbrev Extended := WithBot (WithTop ℚ)

def Extended.ofRat (q : ℚ) : Extended := ((q : WithTop ℚ) : WithBot (WithTop ℚ))

/-- The number a word denotes, infinities included. A NaN denotes none. -/
def Binary64.extended? (x : Binary64) : Option Extended :=
  if x.isInfinite then some (if x.negative then ⊥ else ⊤) else x.number?.map Extended.ofRat

def Value.extended? : Value → Option Extended
  | .real x => x.extended?
  | v => v.number?.map Extended.ofRat

/-- The units of an infinity, which no other word has. -/
def limit : Nat := 2 ^ (1024 + scaleExponent)

/-- What so many units are. -/
def Extended.ofUnits (u : ℤ) : Extended :=
  if limit ≤ u then ⊤ else if u ≤ -limit then ⊥ else ofRat (u / scale)

/-- Nothing between the infinities is put in the same place, so places can be compared by their units. -/
theorem Extended.strictMonoOn_ofUnits : StrictMonoOn ofUnits (Set.Icc (-limit : ℤ) limit) := by
  intro u hu w hw h
  have hs : (0 : ℚ) < scale := by exact_mod_cast scale_pos
  simp only [Set.mem_Icc] at hu hw
  have hw' : ¬w ≤ -limit := by omega
  have hu' : ¬limit ≤ u := by omega
  simp only [ofUnits, if_neg hu', if_neg hw']
  split_ifs
  · exact WithBot.bot_lt_coe _
  · exact WithBot.bot_lt_coe _
  · exact WithBot.coe_lt_coe.2 (WithTop.coe_lt_top _)
  · refine WithBot.coe_lt_coe.2 (WithTop.coe_lt_coe.2 ?_)
    exact (div_lt_div_iff_of_pos_right hs).2 (by exact_mod_cast h)

def Num.units? : Num → Option ℤ
  | .int i => some (i.toInt * scale)
  | .uint n => some (n.toNat * scale)
  | .real x => if x.isNaN then none else some x.units

theorem mul_scale_mem {m : ℤ} (h : m.natAbs < 2 ^ 64) : m * scale ∈ Set.Ioo (-limit : ℤ) limit := by
  have hlt : m.natAbs * scale < limit := by
    calc m.natAbs * scale < 2 ^ 64 * scale := Nat.mul_lt_mul_of_pos_right h scale_pos
      _ = 2 ^ (64 + scaleExponent) := by rw [scale_eq, pow_add]
      _ ≤ limit := Nat.pow_le_pow_right Nat.two_pos (Nat.add_le_add_right (by decide) scaleExponent)
  have habs : (m * scale).natAbs = m.natAbs * scale := by rw [Int.natAbs_mul, Int.natAbs_natCast]
  simp only [Set.mem_Ioo]
  omega

theorem Extended.ofUnits_of_mem {u : ℤ} (h : u ∈ Set.Ioo (-limit : ℤ) limit) : ofUnits u = ofRat (u / scale) := by
  rw [ofUnits, if_neg (not_le.2 h.2), if_neg (not_le.2 h.1)]

theorem Extended.ofUnits_mul_scale {m : ℤ} (h : m.natAbs < 2 ^ 64) : ofUnits (m * scale) = ofRat m := by
  have hs : (scale : ℚ) ≠ 0 := by exact_mod_cast scale_pos.ne'
  rw [ofUnits_of_mem (mul_scale_mem h), Int.cast_mul, Int.cast_natCast, mul_div_cancel_right₀ _ hs]

theorem unitsAbs_lt_limit {x : Binary64} (h : x.isFinite = true) : x.unitsAbs < limit := by
  have hm : x.magnitude < 2047 * 2 ^ 52 := isFinite_iff.1 h
  have hf : x.fraction < 2 ^ 52 := Nat.mod_lt _ (by simp)
  have he : x.exponent < 2047 := by
    rw [exponent, Nat.shiftRight_eq_div_pow]
    exact (Nat.div_lt_iff_lt_mul (Nat.two_pow_pos 52)).2 hm
  rw [unitsAbs]
  split_ifs with h0
  · exact hf.trans_le (Nat.pow_le_pow_right Nat.two_pos (by decide))
  · calc ((1 <<< 52) + x.fraction) <<< (x.exponent - 1)
        = (2 ^ 52 + x.fraction) * 2 ^ (x.exponent - 1) := Nat.shiftLeft_eq _ _
      _ < 2 ^ 53 * 2 ^ (x.exponent - 1) := Nat.mul_lt_mul_of_pos_right (by omega) (Nat.two_pow_pos _)
      _ = 2 ^ (53 + (x.exponent - 1)) := (pow_add _ _ _).symm
      _ ≤ limit := Nat.pow_le_pow_right Nat.two_pos (by rw [scaleExponent]; omega)

theorem unitsAbs_infinite {x : Binary64} (h : x.isInfinite = true) : x.unitsAbs = limit := by
  have hm : x.magnitude = infinityMagnitude := of_decide_eq_true h
  have he : x.exponent = 2047 := by rw [exponent, hm]; decide
  have hf : x.fraction = 0 := by rw [fraction, hm]; decide
  have hexp : 52 + (x.exponent - 1) = 1024 + scaleExponent := by rw [he]; rfl
  rw [unitsAbs, if_neg (by omega), hf, Nat.shiftLeft_eq, Nat.add_zero, Nat.one_shiftLeft, ← pow_add, hexp, limit]

theorem isNaN_of_isInfinite {x : Binary64} (h : x.isInfinite = true) : ¬x.isNaN = true := by
  have hm : x.magnitude = infinityMagnitude := of_decide_eq_true h
  simp [isNaN, hm]

theorem units_mem {x : Binary64} (h : x.isNaN = false) : x.units ∈ Set.Icc (-limit : ℤ) limit := by
  have habs : x.unitsAbs ≤ limit := by
    cases hinf : x.isInfinite with
    | true => exact (unitsAbs_infinite hinf).le
    | false => exact (unitsAbs_lt_limit (by rw [isFinite, h, hinf]; rfl)).le
  have hu := natAbs_units x
  simp only [Set.mem_Icc]
  omega

theorem Binary64.extended?_eq (x : Binary64) :
    x.extended? = if x.isNaN then none else some (.ofUnits x.units) := by
  have hpos : 0 < limit := Nat.two_pow_pos _
  rw [extended?]
  cases hinf : x.isInfinite with
  | true =>
    have hu : x.units = if x.negative then -(limit : ℤ) else limit := by rw [units, unitsAbs_infinite hinf]
    rw [if_pos rfl, if_neg (isNaN_of_isInfinite hinf), hu]
    cases x.negative with
    | true =>
      have hlt : ¬(limit : ℤ) ≤ -limit := by omega
      simp only [if_true, Extended.ofUnits, if_neg hlt, le_refl]
    | false => simp only [Bool.false_eq_true, if_false, Extended.ofUnits, le_refl, if_true]
  | false =>
    -- a word that is no infinity has its number by way of its units already
    cases hnan : x.isNaN with
    | true => simp [number?, isFinite, hnan]
    | false =>
      have hf : x.isFinite = true := by rw [isFinite, hnan, hinf]; rfl
      have hlt := unitsAbs_lt_limit hf
      have hu := natAbs_units x
      have hmem : x.units ∈ Set.Ioo (-limit : ℤ) limit := by simp only [Set.mem_Ioo]; omega
      simp [number?, hf, Extended.ofUnits_of_mem hmem]

theorem Value.units?_of_extended? {v : Value} {p : Extended} (h : v.extended? = some p) :
    ∃ x u, v.num? = some x ∧ x.units? = some u ∧ u ∈ Set.Icc (-limit : ℤ) limit ∧ Extended.ofUnits u = p := by
  cases v with
  | bool b =>
    obtain rfl := Option.some.inj h
    have hmem (m : ℤ) (hm : m.natAbs < 2 ^ 64) := Set.Ioo_subset_Icc_self (mul_scale_mem hm)
    cases b
    · exact ⟨_, _, rfl, rfl, hmem _ (by decide), Extended.ofUnits_mul_scale (by decide)⟩
    · exact ⟨_, _, rfl, rfl, hmem _ (by decide), Extended.ofUnits_mul_scale (by decide)⟩
  | int i =>
    obtain rfl := Option.some.inj h
    have hi : i.toInt.natAbs < 2 ^ 64 := by have := i.le_toInt; have := i.toInt_lt; omega
    exact ⟨_, _, rfl, rfl, Set.Ioo_subset_Icc_self (mul_scale_mem hi), Extended.ofUnits_mul_scale hi⟩
  | uint n =>
    obtain rfl := Option.some.inj h
    have hn : (n.toNat : ℤ).natAbs < 2 ^ 64 := by have := n.toNat_lt; omega
    refine ⟨_, _, rfl, rfl, Set.Ioo_subset_Icc_self (mul_scale_mem hn), ?_⟩
    exact_mod_cast Extended.ofUnits_mul_scale hn
  | real x =>
    have hx := (Binary64.extended?_eq x).symm.trans h
    cases hnan : x.isNaN with
    | true => simp [hnan] at hx
    | false =>
      rw [hnan] at hx
      exact ⟨.real x, x.units, rfl, by simp [Num.units?, hnan], units_mem hnan, Option.some.inj hx⟩
  | _ => cases h

/-! ### Comparison -/

/-- There is a uint64 on one side, and on the other the real it is rounded to. -/
def Num.meets : Num → Num → Bool
  | .uint n, .real x => (ofInt n.toNat).units == x.units
  | .real x, .uint n => (ofInt n.toNat).units == x.units
  | _, _ => false

def Value.meets (a b : Value) : Bool :=
  match a.num?, b.num? with
  | some x, some y => x.meets y
  | _, _ => false

theorem compare_mul_scale (m n : ℤ) : compare (m * scale) (n * scale) = compare m n := by
  have hmono : StrictMono fun m : ℤ => m * (scale : ℤ) := by
    intro m n h
    exact Int.mul_lt_mul_of_pos_right h (by exact_mod_cast scale_pos)
  rw [← cmp_eq_compare, ← cmp_eq_compare]
  exact hmono.cmp_map_eq m n

section Past

variable {n : Nat} (hn : n < 2 ^ 64) {x : Binary64}
include hn

theorem units_ofInt_natCast : (ofInt n).units = (ofUnits false (n * scale) 1).unitsAbs := by
  have hneg : decide ((n : ℤ) < 0) = false := by simp
  rw [ofInt, hneg, Int.natAbs_natCast, units, (ofUnits_of_lt false (log2_mul_scale_lt hn)).2.1]
  rfl

/-- No uint64 is rounded past a real. -/
theorem units_ofInt_le_of_le (h : n * scale ≤ x.units) : (ofInt n).units ≤ x.units := by
  have hx := natAbs_units x
  have hle : n * scale ≤ x.unitsAbs := by have := Int.natCast_mul n scale; omega
  have := ofUnits_le_of_le false (log2_mul_scale_lt hn) hle
  rw [units_ofInt_natCast hn]
  omega

theorem le_units_ofInt_of_le (h : x.units ≤ n * scale) : x.units ≤ (ofInt n).units := by
  have hx := natAbs_units x
  rw [units_ofInt_natCast hn]
  by_cases h0 : x.units < 0
  · omega
  · have hle : x.unitsAbs ≤ n * scale := by have := Int.natCast_mul n scale; omega
    have := le_ofUnits_of_le false (log2_mul_scale_lt hn) hle
    omega

theorem compare_ofInt : compare (ofInt n).units x.units =
    if (ofInt n).units = x.units then .eq else compare (n * scale : ℤ) x.units := by
  split_ifs with h
  · exact Int.compare_eq_eq.2 h
  · rcases lt_trichotomy (n * scale : ℤ) x.units with hlt | heq | hgt
    · rw [Int.compare_eq_lt.2 hlt]
      exact Int.compare_eq_lt.2 (lt_of_le_of_ne (units_ofInt_le_of_le hn hlt.le) h)
    · exact absurd (le_antisymm (units_ofInt_le_of_le hn heq.le) (le_units_ofInt_of_le hn heq.ge)) h
    · rw [Int.compare_eq_gt.2 hgt]
      exact Int.compare_eq_gt.2 (lt_of_le_of_ne (le_units_ofInt_of_le hn hgt.le) (Ne.symm h))

end Past

theorem compare?_of_numbers {x y : Binary64} (hx : x.isNaN = false) (hy : y.isNaN = false) :
    x.compare? y = some (compare x.units y.units) := by
  rw [compare?, hx, hy]
  rfl

theorem isNaN_ofInt {n : ℤ} (hn : n.natAbs < 2 ^ 64) : (ofInt n).isNaN = false := by
  have hf := (ofInt_of_lt hn).2.2
  simp only [isFinite, Bool.and_eq_true, Bool.not_eq_true'] at hf
  exact hf.1

theorem Num.units?_real {x : Binary64} {u : ℤ} (h : (Num.real x).units? = some u) :
    x.isNaN = false ∧ x.units = u := by
  simp only [units?] at h
  split_ifs at h with hnan
  exact ⟨by simpa using hnan, Option.some.inj h⟩

/-- Comparison of the units, save that a meeting comes out as equality. An int has at most 53 bits and is
rounded to itself, so it meets nothing. -/
theorem Num.compare?_eq {x y : Num} {u w : ℤ} (hx : x.units? = some u) (hy : y.units? = some w) :
    x.compare? y = some (if x.meets y then .eq else compare u w) := by
  cases x with
  | int i =>
    obtain rfl := Option.some.inj hx
    have h0 := i.le_toInt
    have h1 := i.toInt_lt
    cases y with
    | int j =>
      obtain rfl := Option.some.inj hy
      simp only [compare?, meets, Bool.false_eq_true, if_false, compare_mul_scale]
    | uint n =>
      obtain rfl := Option.some.inj hy
      simp only [compare?, meets, Bool.false_eq_true, if_false, compare_mul_scale]
    | real r =>
      obtain ⟨hr, rfl⟩ := units?_real hy
      simp only [compare?, toReal, meets, Bool.false_eq_true, if_false]
      rw [compare?_of_numbers (isNaN_ofInt (by omega)) hr, units_ofInt_of_lt (by omega)]
  | uint n =>
    obtain rfl := Option.some.inj hx
    have hn := n.toNat_lt
    cases y with
    | int j =>
      obtain rfl := Option.some.inj hy
      simp only [compare?, meets, Bool.false_eq_true, if_false, compare_mul_scale]
    | uint m =>
      obtain rfl := Option.some.inj hy
      have hcast := (Nat.strictMono_cast : StrictMono (Nat.cast : ℕ → ℤ)).cmp_map_eq n.toNat m.toNat
      rw [cmp_eq_compare, cmp_eq_compare] at hcast
      simp only [compare?, meets, Bool.false_eq_true, if_false, compare_mul_scale, hcast]
    | real r =>
      obtain ⟨hr, rfl⟩ := units?_real hy
      simp only [compare?, toReal, meets, beq_iff_eq]
      rw [compare?_of_numbers (isNaN_ofInt (by omega)) hr, compare_ofInt hn]
  | real r =>
    obtain ⟨hr, rfl⟩ := units?_real hx
    cases y with
    | int j =>
      obtain rfl := Option.some.inj hy
      have h0 := j.le_toInt
      have h1 := j.toInt_lt
      simp only [compare?, toReal, meets, Bool.false_eq_true, if_false]
      rw [compare?_of_numbers hr (isNaN_ofInt (by omega)), units_ofInt_of_lt (by omega)]
    | uint n =>
      obtain rfl := Option.some.inj hy
      have hn := n.toNat_lt
      simp only [compare?, toReal, meets, beq_iff_eq]
      rw [compare?_of_numbers hr (isNaN_ofInt (by omega)), ← Int.compare_swap, compare_ofInt hn,
        apply_ite Ordering.swap, Int.compare_swap, Ordering.swap_eq]
    | real r' =>
      obtain ⟨hr', rfl⟩ := units?_real hy
      simp only [compare?, toReal, meets, Bool.false_eq_true, if_false]
      exact compare?_of_numbers hr hr'

/-! ### Order and equality of values -/

namespace Value

variable {a b : Value} {p q : Extended}

theorem order_eq (ha : a.extended? = some p) (hb : b.extended? = some q) :
    a.order b = .ok (some (if a.meets b then .eq else cmp p q)) := by
  obtain ⟨x, u, hax, hu, humem, rfl⟩ := units?_of_extended? ha
  obtain ⟨y, w, hby, hw, hwmem, rfl⟩ := units?_of_extended? hb
  rw [Extended.strictMonoOn_ofUnits.cmp_map_eq humem hwmem, cmp_eq_compare]
  simp only [order, meets, hax, hby, Num.compare?_eq hu hw]

theorem equals_iff_order (ha : a.extended? = some p) (hb : b.extended? = some q) :
    a.equals b = true ↔ a.order b = .ok (some .eq) := by
  obtain ⟨x, -, hax, -⟩ := units?_of_extended? ha
  obtain ⟨y, -, hby, -⟩ := units?_of_extended? hb
  simp [equals, order, hax, hby]

/-- The comparisons put the values of a set in line, equal ones in one place. -/
structure Ordered (S : Set Value) : Prop where
  total : ∀ a ∈ S, ∀ b ∈ S, a.related .le b = .ok true ∨ b.related .le a = .ok true
  trans : ∀ a ∈ S, ∀ b ∈ S, ∀ c ∈ S, a.related .le b = .ok true → b.related .le c = .ok true →
    a.related .le c = .ok true
  equivalence : Equivalence fun a b : S => a.val.equals b.val = true

theorem le_iff_of_order (h : a.order b = .ok (some (cmp p q))) : a.related .le b = .ok true ↔ p ≤ q := by
  rw [related, h, ← not_lt, ← cmp_eq_gt_iff]
  cases cmp p q <;> simp [Except.map, Relation.holds]

theorem ordered_of_exact {S : Set Value} (place : Value → Extended)
    (horder : ∀ a ∈ S, ∀ b ∈ S, a.order b = .ok (some (cmp (place a) (place b))))
    (hequals : ∀ a ∈ S, ∀ b ∈ S, a.equals b = true ↔ place a = place b) : Ordered S where
  total a ha b hb := by
    rw [le_iff_of_order (horder a ha b hb), le_iff_of_order (horder b hb a ha)]
    exact le_total _ _
  trans a ha b hb c hc := by
    rw [le_iff_of_order (horder a ha b hb), le_iff_of_order (horder b hb c hc),
      le_iff_of_order (horder a ha c hc)]
    exact le_trans
  equivalence := by
    have hiff (a b : S) := hequals a a.2 b b.2
    refine ⟨fun a => (hiff a a).2 rfl, fun {a b} h => ?_, fun {a b c} h h' => ?_⟩
    · exact (hiff b a).2 ((hiff a b).1 h).symm
    · exact (hiff a c).2 (((hiff a b).1 h).trans ((hiff b c).1 h'))

/-- A uint64 that loses nothing to rounding meets only what it equals. -/
theorem extended?_of_meets {n : UInt64} {x r : Binary64} (hcast : (uint n).exact .real = .ok x)
    (hr : r.isNaN = false) (h : (uint n).meets (real r) = true) :
    (uint n).extended? = (real r).extended? := by
  have hn : (n.toNat : ℤ).natAbs < 2 ^ 64 := by have := n.toNat_lt; omega
  have htrunc : (ofInt n.toNat).trunc = n.toNat := by
    simp only [exact] at hcast
    split_ifs at hcast with ht
    exact ht
  have hmeet : (ofInt n.toNat).units = r.units := of_decide_eq_true h
  have hnumber : some (Extended.ofUnits r.units) = some (.ofRat (n.toNat : ℤ)) := by
    rw [← hmeet, units_ofInt_of_trunc hn htrunc, Extended.ofUnits_mul_scale hn]
  rw [show (real r).extended? = r.extended? from rfl, Binary64.extended?_eq, hr]
  exact hnumber.symm

theorem meets_comm (a b : Value) : a.meets b = b.meets a := by
  unfold meets
  cases a.num? with
  | none => cases b.num? <;> rfl
  | some x => cases b.num? with
    | none => rfl
    | some y => cases x <;> cases y <;> rfl

theorem extended?_ofInt {n : ℤ} (hn : n.natAbs < 2 ^ 64)
    (hd : 2 ^ spacing (n.natAbs * scale) ∣ n.natAbs * scale) :
    (real (ofInt n)).extended? = some (.ofRat n) := by
  have hnan : (ofInt n).isNaN = false := isNaN_ofInt hn
  rw [show (real (ofInt n)).extended? = (ofInt n).extended? from rfl, Binary64.extended?_eq, hnan,
    units_ofInt_of_dvd hn hd, Extended.ofUnits_mul_scale hn]
  rfl

theorem extended?_eq_of_meets {x y : Binary64} (ha : a.extended? = some p) (hb : b.extended? = some q)
    (hax : a.exact .real = .ok x) (hby : b.exact .real = .ok y) (h : a.meets b = true) :
    a.extended? = b.extended? := by
  have hnan (r : Binary64) (o : Extended) (hr : (real r).extended? = some o) : r.isNaN = false := by
    obtain ⟨_, _, hx, hu, -⟩ := units?_of_extended? hr
    obtain rfl := Option.some.inj hx
    exact (Num.units?_real hu).1
  cases a with
  | uint n => cases b with
    | real r => exact extended?_of_meets hax (hnan r q hb) h
    | _ => cases h
  | real r => cases b with
    | uint n => exact (extended?_of_meets hby (hnan r p ha) (meets_comm _ _ ▸ h)).symm
    | _ => cases h
  | bool | int => cases b <;> cases h
  | _ => cases ha

/-- Numbers of all kinds compare by the places of what they denote, but for a uint64 beside the real that it
is rounded to, which counts as equal to it. Among numbers of which no two meet like that without being
equal, at most is a total preorder and equality an equivalence. -/
theorem order_numeric (S : Set Value) (place : Value → Extended)
    (hplace : ∀ v ∈ S, v.extended? = some (place v)) :
    (∀ a ∈ S, ∀ b ∈ S,
      a.order b = .ok (some (if a.meets b then .eq else cmp (place a) (place b))) ∧
      (a.equals b = true ↔ a.meets b = true ∨ place a = place b)) ∧
    ((∀ a ∈ S, ∀ b ∈ S, a.meets b = true → place a = place b) → Ordered S) := by
  have horder (a : Value) (ha : a ∈ S) (b : Value) (hb : b ∈ S) := order_eq (hplace a ha) (hplace b hb)
  have hequals (a : Value) (ha : a ∈ S) (b : Value) (hb : b ∈ S) :
      a.equals b = true ↔ a.meets b = true ∨ place a = place b := by
    rw [equals_iff_order (hplace a ha) (hplace b hb), horder a ha b hb]
    cases a.meets b with
    | true => simp
    | false => simp [cmp_eq_eq_iff]
  refine ⟨fun a ha b hb => ⟨horder a ha b hb, hequals a ha b hb⟩, fun hmeets => ?_⟩
  refine ordered_of_exact place (fun a ha b hb => ?_) (fun a ha b hb => ?_)
  · rw [horder a ha b hb]
    split_ifs with h
    · rw [hmeets a ha b hb h, cmp_self_eq_eq]
    · rfl
  · rw [hequals a ha b hb]
    exact or_iff_right_of_imp (hmeets a ha b hb)

/-- Two uint64 beside 2^53, which one of them is rounded to; an int that is less than all uint64; and
all numbers that reals hold without loss. -/
theorem order_numeric_beside_reals :
    ((uint 0x20000000000001).order (real (ofInt (2 ^ 53))) = .ok (some .eq) ∧
      (uint 0x20000000000002).order (real (ofInt (2 ^ 53))) = .ok (some .gt) ∧
      (int (-1)).order (uint 0) = .ok (some .lt)) ∧
    Ordered {v | (∃ p, v.extended? = some p) ∧ ∃ x, v.exact .real = .ok x} := by
  have hplace (v : Value) (hv : ∃ p, v.extended? = some p) : v.extended? = some (v.extended?.getD ⊥) := by
    obtain ⟨p, hp⟩ := hv
    rw [hp, Option.getD_some]
  have hreal : (real (ofInt (2 ^ 53))).extended? = some (.ofRat (2 ^ 53 : ℤ)) :=
    extended?_ofInt (by decide) (by decide +kernel)
  have hnumbers := (order_numeric {v | ∃ p, v.extended? = some p} _ hplace).1
  have hlevel := (hnumbers (uint 0x20000000000001) ⟨_, rfl⟩ _ ⟨_, hreal⟩).1
  have habove := (hnumbers (uint 0x20000000000002) ⟨_, rfl⟩ _ ⟨_, hreal⟩).1
  have hbelow := (hnumbers (int (-1)) ⟨_, rfl⟩ (uint 0) ⟨_, rfl⟩).1
  rw [if_pos (by decide +kernel)] at hlevel
  rw [if_neg (by decide +kernel), hreal, (cmp_eq_gt_iff _ _).2] at habove
  rw [if_neg (by decide +kernel), (cmp_eq_lt_iff _ _).2] at hbelow
  · refine ⟨⟨hlevel, habove, hbelow⟩, (order_numeric _ _ fun v hv => hplace v hv.1).2 ?_⟩
    rintro a ⟨⟨p, ha⟩, x, hax⟩ b ⟨⟨q, hb⟩, y, hby⟩ h
    rw [extended?_eq_of_meets ha hb hax hby h]
  · refine WithBot.coe_lt_coe.2 (WithTop.coe_lt_coe.2 ?_)
    rw [show Int32.toInt (-1) = -1 from rfl, show UInt64.toNat 0 = 0 from rfl]
    norm_num
  · refine WithBot.coe_lt_coe.2 (WithTop.coe_lt_coe.2 ?_)
    rw [show UInt64.toNat 0x20000000000002 = 0x20000000000002 from rfl]
    norm_num

/-- 2^53 + 1 is rounded to 2^53 next to a real, so it is level with it, and so at most 2^53, which it is
not next to a uint64. -/
theorem order_rounds :
    (¬∀ (a b : Value) (p q : Extended), a.extended? = some p → b.extended? = some q →
      a.order b = .ok (some (cmp p q))) ∧
    ¬Ordered {v | ∃ p, v.extended? = some p} := by
  have hreal : (real (ofInt (2 ^ 53))).extended? = some (.ofRat (2 ^ 53 : ℤ)) :=
    extended?_ofInt (by decide) (by decide +kernel)
  have hsome (n : UInt64) : ∃ p, (uint n).extended? = some p := ⟨_, rfl⟩
  refine ⟨fun h => ?_, fun h => ?_⟩
  · have hlevel : (uint 0x20000000000001).order (real (ofInt (2 ^ 53))) = .ok (some .eq) := by decide +kernel
    have hcmp := Option.some.inj (Except.ok.inj (hlevel.symm.trans (h _ _ _ _ rfl hreal)))
    have heq := (cmp_eq_eq_iff _ _).1 hcmp.symm
    have hrat := WithTop.coe_inj.1 (WithBot.coe_inj.1 heq)
    rw [show UInt64.toNat 0x20000000000001 = 0x20000000000001 from rfl] at hrat
    norm_num at hrat
  · have habove : (uint 0x20000000000001).related .le (real (ofInt (2 ^ 53))) = .ok true := by decide +kernel
    have hbelow : (real (ofInt (2 ^ 53))).related .le (uint 0x20000000000000) = .ok true := by decide +kernel
    have hapart : (uint 0x20000000000001).related .le (uint 0x20000000000000) = .ok false := by decide +kernel
    have htrans := h.trans _ (hsome _) _ ⟨_, hreal⟩ _ (hsome _) habove hbelow
    cases hapart.symm.trans htrans

end Value

end ScriptVm
