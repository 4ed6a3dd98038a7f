import ScriptVm.Value.Arithmetic
import Mathlib.Data.Int.Bitwise
import Mathlib.Data.Int.ModEq

/-! Arithmetic of ints and words. Each operator picks the width of its result from the kinds of its
operands, and computes there with what the width has left of them. Reducing a whole number to a width
commutes with sums, differences, products and the bitwise operations, so whatever width is picked, the
result agrees with the exact one up to the bits it has. Quotient and remainder do not commute with the
reduction; but together they give the dividend back, on every row of the four tables involved. -/

namespace ScriptVm

/-! ### Whole numbers -/

/-- The whole number an int or a word is. -/
def Num.integer? : Num → Option ℤ
  | .int i => some i.toInt
  | .uint n => some n.toNat
  | .real _ => none

/-- The whole number a value of a whole-number kind is; a truth value counts as 0 or 1. -/
def Value.integer? : Value → Option ℤ
  | .bool b => some (if b then 1 else 0)
  | .int i => some i.toInt
  | .uint n => some n.toNat
  | _ => none

/-- The value is an int or a word and agrees with a whole number up to the bits it has. -/
def Value.Wraps : Value → ℤ → Prop
  | .int i, n => i.toInt ≡ n [ZMOD 2 ^ 32]
  | .uint w, n => w.toNat ≡ n [ZMOD 2 ^ 64]
  | _, _ => False

theorem Value.num?_of_integer? {v : Value} {n : ℤ} (h : v.integer? = some n) :
    ∃ x, v.num? = some x ∧ x.integer? = some n := by
  cases v with
  | bool b =>
    refine ⟨_, rfl, ?_⟩
    rw [← h]
    cases b <;> rfl
  | int i => exact ⟨_, rfl, h⟩
  | uint w => exact ⟨_, rfl, h⟩
  | _ => cases h

@[simp] theorem Num.num?_toValue (x : Num) : x.toValue.num? = some x := by
  cases x <;> rfl

theorem Operator.apply_of_num? {a b : Value} {x y : Num} (op : Operator) (ha : a.num? = some x)
    (hb : b.num? = some y) : op.apply a b = (op.onNumbers x y).map Num.toValue := by
  cases a with
  | undefined | string | array | pointer => cases ha
  | _ => cases op <;> simp only [apply, ha, hb]

/-! ### Reduction to a width -/

section Widths

variable {i j : Int32} {u w : UInt64} {m n : ℤ}

theorem toBitVec_ofInt (n : ℤ) : (UInt64.ofInt n).toBitVec = BitVec.ofInt 64 n := by
  refine BitVec.eq_of_toNat_eq ?_
  rw [UInt64.toNat_toBitVec, UInt64.ofInt, UInt64.toNat_ofNat', BitVec.toNat_ofInt]
  omega

theorem toNat_ofInt (n : ℤ) : ((UInt64.ofInt n).toNat : ℤ) = n % 2 ^ 64 := by
  rw [← UInt64.toNat_toBitVec, toBitVec_ofInt, BitVec.toNat_ofInt]
  omega

theorem uint_eq_ofInt_iff : w = UInt64.ofInt n ↔ (w.toNat : ℤ) ≡ n [ZMOD 2 ^ 64] := by
  have hw : (w.toNat : ℤ) % 2 ^ 64 = w.toNat := by have := w.toNat_lt; omega
  rw [← UInt64.toNat_inj, ← Int.natCast_inj, toNat_ofInt, Int.ModEq, hw]

theorem int_eq_ofInt_iff : i = Int32.ofInt n ↔ i.toInt ≡ n [ZMOD 2 ^ 32] := by
  rw [← Int32.toInt_inj, Int32.toInt_ofInt]
  constructor
  · intro h
    rw [h]
    exact Int.bmod_emod
  · intro h
    calc i.toInt = (i.toInt % (Int32.size : ℤ)).bmod Int32.size := by
          rw [Int.emod_bmod, Int32.toInt_bmod_size]
      _ = (n % (Int32.size : ℤ)).bmod Int32.size := congrArg (Int.bmod · Int32.size) h
      _ = n.bmod Int32.size := Int.emod_bmod n Int32.size

@[simp] theorem ofInt_toNat (w : UInt64) : UInt64.ofInt w.toNat = w :=
  (uint_eq_ofInt_iff.2 rfl).symm

theorem ofInt_sub (m n : ℤ) : UInt64.ofInt (m - n) = UInt64.ofInt m - UInt64.ofInt n := by
  rw [Int.sub_eq_add_neg, UInt64.ofInt_add, UInt64.ofInt_neg, UInt64.sub_eq_add_neg]

theorem ofInt_congr (h : m ≡ n [ZMOD 2 ^ 32]) : Int32.ofInt m = Int32.ofInt n :=
  int_eq_ofInt_iff.2 ((int_eq_ofInt_iff.1 rfl).trans h)

/-- The low half of what 64 bits have of a number is what 32 bits have of it. -/
theorem narrow_ofInt (n : ℤ) : Num.narrow (UInt64.ofInt n) = Int32.ofInt n := by
  refine ofInt_congr ?_
  rw [toNat_ofInt]
  exact (Int.mod_modEq n (2 ^ 64)).of_dvd (by decide)

/-! ### Bits of a whole number -/

theorem getLsbD_ofInt {k l : Nat} (h : l < k) (n : ℤ) : (BitVec.ofInt k n).getLsbD l = n.testBit l := by
  cases n with
  | ofNat n => simp only [Int.ofNat_eq_natCast, BitVec.ofInt_natCast, BitVec.getLsbD_ofNat, h, decide_true,
      Bool.true_and, Int.testBit]
  | negSucc n => simp only [BitVec.ofInt_negSucc_eq_not_ofNat, BitVec.getLsbD_not, BitVec.getLsbD_ofNat, h, decide_true,
      Bool.true_and, Int.testBit]

theorem ofInt_land (k : Nat) (m n : ℤ) :
    BitVec.ofInt k (m.land n) = BitVec.ofInt k m &&& BitVec.ofInt k n :=
  BitVec.eq_of_getLsbD_eq fun l h => by
    simp only [getLsbD_ofInt h, BitVec.getLsbD_and, Int.testBit_land]

theorem ofInt_lor (k : Nat) (m n : ℤ) :
    BitVec.ofInt k (m.lor n) = BitVec.ofInt k m ||| BitVec.ofInt k n :=
  BitVec.eq_of_getLsbD_eq fun l h => by
    simp only [getLsbD_ofInt h, BitVec.getLsbD_or, Int.testBit_lor]

theorem ofInt_xor (k : Nat) (m n : ℤ) :
    BitVec.ofInt k (m.xor n) = BitVec.ofInt k m ^^^ BitVec.ofInt k n :=
  BitVec.eq_of_getLsbD_eq fun l h => by
    simp only [getLsbD_ofInt h, BitVec.getLsbD_xor, Int.testBit_lxor]

end Widths

/-! ### The tables -/

/-- An operation on whole numbers and what it comes to in 32 and in 64 bits. -/
structure Reduces (f : ℤ → ℤ → ℤ) (narrowOp : Int32 → Int32 → Int32)
    (wideOp : UInt64 → UInt64 → UInt64) : Prop where
  ofInt_int : ∀ m n, Int32.ofInt (f m n) = narrowOp (.ofInt m) (.ofInt n)
  ofInt_uint : ∀ m n, UInt64.ofInt (f m n) = wideOp (.ofInt m) (.ofInt n)

theorem reduces_add : Reduces (· + ·) (· + ·) (· + ·) := ⟨Int32.ofInt_add, UInt64.ofInt_add⟩

theorem reduces_sub : Reduces (· - ·) (· - ·) (· - ·) := ⟨Int32.ofInt_sub, ofInt_sub⟩

theorem reduces_mul : Reduces (· * ·) (· * ·) (· * ·) := ⟨Int32.ofInt_mul, UInt64.ofInt_mul⟩

theorem reduces_and : Reduces Int.land (· &&& ·) (· &&& ·) where
  ofInt_int m n := Int32.toBitVec_inj.1 (ofInt_land 32 m n)
  ofInt_uint m n := UInt64.toBitVec_inj.1 (by simp only [UInt64.toBitVec_and, toBitVec_ofInt, ofInt_land])

theorem reduces_or : Reduces Int.lor (· ||| ·) (· ||| ·) where
  ofInt_int m n := Int32.toBitVec_inj.1 (ofInt_lor 32 m n)
  ofInt_uint m n := UInt64.toBitVec_inj.1 (by simp only [UInt64.toBitVec_or, toBitVec_ofInt, ofInt_lor])

theorem reduces_xor : Reduces Int.xor (· ^^^ ·) (· ^^^ ·) where
  ofInt_int m n := Int32.toBitVec_inj.1 (ofInt_xor 32 m n)
  ofInt_uint m n := UInt64.toBitVec_inj.1 (by simp only [UInt64.toBitVec_xor, toBitVec_ofInt, ofInt_xor])

section Tables

variable {f : ℤ → ℤ → ℤ} {narrowOp : Int32 → Int32 → Int32} {wideOp : UInt64 → UInt64 → UInt64}
  {i j : Int32} {u w : UInt64} {x y : Num} {m n : ℤ}

theorem Reduces.int (h : Reduces f narrowOp wideOp) (hi : i = Int32.ofInt m) (hj : j = Int32.ofInt n) :
    (Value.int (narrowOp i j)).Wraps (f m n) := by
  rw [hi, hj, ← h.ofInt_int]
  exact int_eq_ofInt_iff.1 rfl

theorem Reduces.uint (h : Reduces f narrowOp wideOp) (hu : u = UInt64.ofInt m) (hw : w = UInt64.ofInt n) :
    (Value.uint (wideOp u w)).Wraps (f m n) := by
  rw [hu, hw, ← h.ofInt_uint]
  exact uint_eq_ofInt_iff.1 rfl

/-- The four rows that a table has for whole operands. -/
theorem Num.integer_cases (hx : x.integer? = some m) (hy : y.integer? = some n) :
    (∃ i j, x = .int i ∧ y = .int j ∧ i.toInt = m ∧ j.toInt = n) ∨
    (∃ i w, x = .int i ∧ y = .uint w ∧ i.toInt = m ∧ w.toNat = n) ∨
    (∃ u j, x = .uint u ∧ y = .int j ∧ u.toNat = m ∧ j.toInt = n) ∨
    (∃ u w, x = .uint u ∧ y = .uint w ∧ u.toNat = m ∧ w.toNat = n) := by
  cases x with
  | real => cases hx
  | int i =>
    cases y with
    | real => cases hy
    | int j => exact .inl ⟨i, j, rfl, rfl, Option.some.inj hx, Option.some.inj hy⟩
    | uint w => exact .inr (.inl ⟨i, w, rfl, rfl, Option.some.inj hx, Option.some.inj hy⟩)
  | uint u =>
    cases y with
    | real => cases hy
    | int j => exact .inr (.inr (.inl ⟨u, j, rfl, rfl, Option.some.inj hx, Option.some.inj hy⟩))
    | uint w => exact .inr (.inr (.inr ⟨u, w, rfl, rfl, Option.some.inj hx, Option.some.inj hy⟩))

theorem int_eq (i : Int32) : i = Int32.ofInt i.toInt := (Int32.ofInt_toInt i).symm

theorem uint_eq (w : UInt64) : w = UInt64.ofInt w.toNat := (ofInt_toNat w).symm

theorem Num.add_wraps (hx : x.integer? = some m) (hy : y.integer? = some n) :
    (x.add y).toValue.Wraps (m + n) := by
  obtain ⟨i, j, rfl, rfl, rfl, rfl⟩ | ⟨i, w, rfl, rfl, rfl, rfl⟩ | ⟨u, j, rfl, rfl, rfl, rfl⟩ |
    ⟨u, w, rfl, rfl, rfl, rfl⟩ := Num.integer_cases hx hy
  · exact reduces_add.int (int_eq i) (int_eq j)
  · exact reduces_add.uint rfl (uint_eq w)
  · exact reduces_add.uint (uint_eq u) rfl
  · exact reduces_add.uint (uint_eq u) (uint_eq w)

theorem Num.sub_wraps (hx : x.integer? = some m) (hy : y.integer? = some n) :
    ∃ z, x.sub y = .ok z ∧ z.toValue.Wraps (m - n) := by
  obtain ⟨i, j, rfl, rfl, rfl, rfl⟩ | ⟨i, w, rfl, rfl, rfl, rfl⟩ | ⟨u, j, rfl, rfl, rfl, rfl⟩ |
    ⟨u, w, rfl, rfl, rfl, rfl⟩ := Num.integer_cases hx hy
  · exact ⟨_, rfl, reduces_sub.int (int_eq i) (int_eq j)⟩
  · have h : Num.widen i - w = UInt64.ofInt (i.toInt - w.toNat) := by rw [ofInt_sub, ofInt_toNat]; rfl
    exact ⟨_, rfl, int_eq_ofInt_iff.1 (h ▸ narrow_ofInt _)⟩
  · simp only [sub]
    split
    · have hu := u.toNat_lt
      have hj := j.toInt_lt
      exact ⟨_, ofWide_of_lt (by unfold wideEnd; omega), int_eq_ofInt_iff.1 rfl⟩
    · exact ⟨_, rfl, reduces_sub.uint (uint_eq u) rfl⟩
  · simp only [sub]
    split
    case isTrue => exact ⟨_, rfl, reduces_sub.int rfl rfl⟩
    case isFalse h => exact ⟨_, difference_of_le (UInt64.not_lt.1 h), reduces_sub.uint (uint_eq u) (uint_eq w)⟩

theorem Num.mul_wraps (hx : x.integer? = some m) (hy : y.integer? = some n) :
    (x.mul y).toValue.Wraps (m * n) := by
  obtain ⟨i, j, rfl, rfl, rfl, rfl⟩ | ⟨i, w, rfl, rfl, rfl, rfl⟩ | ⟨u, j, rfl, rfl, rfl, rfl⟩ |
    ⟨u, w, rfl, rfl, rfl, rfl⟩ := Num.integer_cases hx hy
  · exact reduces_mul.int (int_eq i) (int_eq j)
  · exact reduces_mul.uint rfl (uint_eq w)
  · simp only [mul]
    split
    · exact reduces_mul.int rfl (int_eq j)
    · exact reduces_mul.uint (uint_eq u) rfl
  · exact reduces_mul.uint (uint_eq u) (uint_eq w)

theorem Reduces.bitwise (h : Reduces f narrowOp wideOp) (symbol : String) (hx : x.integer? = some m)
    (hy : y.integer? = some n) :
    ∃ z, Num.bitwise symbol narrowOp wideOp x y = .ok z ∧ z.toValue.Wraps (f m n) := by
  obtain ⟨i, j, rfl, rfl, rfl, rfl⟩ | ⟨i, w, rfl, rfl, rfl, rfl⟩ | ⟨u, j, rfl, rfl, rfl, rfl⟩ |
    ⟨u, w, rfl, rfl, rfl, rfl⟩ := Num.integer_cases hx hy
  · exact ⟨_, rfl, h.int (int_eq i) (int_eq j)⟩
  · exact ⟨_, rfl, h.uint rfl (uint_eq w)⟩
  · refine ⟨_, rfl, ?_⟩
    dsimp only
    split
    · exact h.int rfl (int_eq j)
    · exact h.uint (uint_eq u) rfl
  · exact ⟨_, rfl, h.uint (uint_eq u) (uint_eq w)⟩

/-! ### Shifts -/

theorem Num.shiftBase_integer (what : String) (hx : x.integer? = some m) :
    x.shiftBase what = .ok (UInt64.ofInt m) := by
  cases x with
  | int i => obtain rfl := Option.some.inj hx; rfl
  | uint u => obtain rfl := Option.some.inj hx; exact congrArg Except.ok (uint_eq u)
  | real => cases hx

theorem Num.shiftAmount_integer (what : String) (hy : y.integer? = some n) :
    y.shiftAmount what = if n < 0 then .error .negativeShift else .ok n.toNat := by
  cases y with
  | int j => obtain rfl := Option.some.inj hy; simp only [shiftAmount, Int32.lt_iff_toInt_lt, Int32.toInt_zero]
  | uint w => obtain rfl := Option.some.inj hy; simp [shiftAmount]
  | real => cases hy

theorem toNat_shiftLeft (u : UInt64) (k : Nat) :
    (if k < 64 then u <<< k.toUInt64 else 0).toNat = u.toNat * 2 ^ k % 2 ^ 64 := by
  split
  case isTrue h =>
    have hk : k.toUInt64.toNat % 64 = k := by simp; omega
    rw [UInt64.toNat_shiftLeft, hk, Nat.shiftLeft_eq]
  case isFalse h =>
    have hd : 2 ^ 64 ∣ u.toNat * 2 ^ k := Dvd.dvd.mul_left (pow_dvd_pow 2 (not_lt.1 h)) _
    rw [Nat.mod_eq_zero_of_dvd hd]
    rfl

theorem toNat_shiftRight (u : UInt64) (k : Nat) :
    (if k < 64 then u >>> k.toUInt64 else 0).toNat = u.toNat / 2 ^ k := by
  split
  case isTrue h =>
    have hk : k.toUInt64.toNat % 64 = k := by simp; omega
    rw [UInt64.toNat_shiftRight, hk, Nat.shiftRight_eq_div_pow]
  case isFalse h =>
    have hlt : u.toNat < 2 ^ k := u.toNat_lt.trans_le (Nat.pow_le_pow_right (by decide) (not_lt.1 h))
    rw [Nat.div_eq_of_lt hlt]
    rfl

theorem Num.shl_integer (hx : x.integer? = some m) (hy : y.integer? = some n) (hn : 0 ≤ n) :
    ∃ w, x.shl y = .ok (.uint w) ∧ (w.toNat : ℤ) = m * 2 ^ n.toNat % 2 ^ 64 := by
  refine ⟨if n.toNat < 64 then UInt64.ofInt m <<< n.toNat.toUInt64 else 0, ?_, ?_⟩
  · simp only [shl, shiftBase_integer _ hx, shiftAmount_integer _ hy, if_neg (not_lt.2 hn)]
    rfl
  · rw [toNat_shiftLeft, Int.natCast_emod, Int.natCast_mul, toNat_ofInt, Int.natCast_pow, Int.natCast_pow]
    exact (Int.mod_modEq m (2 ^ 64)).mul_right (2 ^ n.toNat)

theorem Num.shr_integer (hx : x.integer? = some m) (hy : y.integer? = some n) (hn : 0 ≤ n) :
    ∃ w, x.shr y = .ok (.uint w) ∧ (w.toNat : ℤ) = m % 2 ^ 64 / 2 ^ n.toNat := by
  refine ⟨if n.toNat < 64 then UInt64.ofInt m >>> n.toNat.toUInt64 else 0, ?_, ?_⟩
  · simp only [shr, shiftBase_integer _ hx, shiftAmount_integer _ hy, if_neg (not_lt.2 hn)]
    rfl
  · rw [toNat_shiftRight, Int.natCast_ediv, toNat_ofInt, Int.natCast_pow]
    rfl

end Tables

/-! ### Operators on values -/

/-- The operation on whole numbers that an operator carries out in the width of its result. Division
and shifts are none of these. -/
def Operator.onIntegers? : Operator → Option (ℤ → ℤ → ℤ)
  | .add => some (· + ·)
  | .sub => some (· - ·)
  | .mul => some (· * ·)
  | .and => some Int.land
  | .or => some Int.lor
  | .xor => some Int.xor
  | .div | .rem | .idiv | .shl | .shr => none

theorem Operator.onNumbers_wraps {op : Operator} {f : ℤ → ℤ → ℤ} {x y : Num} {m n : ℤ}
    (hf : op.onIntegers? = some f) (hx : x.integer? = some m) (hy : y.integer? = some n) :
    ∃ z, op.onNumbers x y = .ok z ∧ z.toValue.Wraps (f m n) := by
  cases op with
  | add => obtain rfl := Option.some.inj hf; exact ⟨_, rfl, Num.add_wraps hx hy⟩
  | sub => obtain rfl := Option.some.inj hf; exact Num.sub_wraps hx hy
  | mul => obtain rfl := Option.some.inj hf; exact ⟨_, rfl, Num.mul_wraps hx hy⟩
  | and => obtain rfl := Option.some.inj hf; exact reduces_and.bitwise "&" hx hy
  | or => obtain rfl := Option.some.inj hf; exact reduces_or.bitwise "|" hx hy
  | xor => obtain rfl := Option.some.inj hf; exact reduces_xor.bitwise "^" hx hy
  | div | rem | idiv | shl | shr => cases hf

/-- Operators on whole numbers of any kinds are exact up to the width of their result: sums,
differences, products and the bitwise operations of two's complement without end always come out, as an
int that is right modulo 2^32 or as a word that is right modulo 2^64. A shift takes what 64 bits have of
the left side and gives a word, however far it goes; no shift goes a negative way. -/
theorem Operator.apply_wraps {a b : Value} {m n : ℤ} (ha : a.integer? = some m) (hb : b.integer? = some n) :
    (∀ op f, Operator.onIntegers? op = some f → ∃ v, op.apply a b = .ok v ∧ v.Wraps (f m n)) ∧
    (0 ≤ n →
      (∃ w, Operator.shl.apply a b = .ok (.uint w) ∧ (w.toNat : ℤ) = m * 2 ^ n.toNat % 2 ^ 64) ∧
      (∃ w, Operator.shr.apply a b = .ok (.uint w) ∧ (w.toNat : ℤ) = m % 2 ^ 64 / 2 ^ n.toNat)) ∧
    (n < 0 → ∃ e : Fault, e.kind = .misc ∧ Operator.shl.apply a b = .error e ∧
      Operator.shr.apply a b = .error e) := by
  obtain ⟨x, hax, hx⟩ := Value.num?_of_integer? ha
  obtain ⟨y, hby, hy⟩ := Value.num?_of_integer? hb
  refine ⟨fun op f hf => ?_, fun hn => ⟨?_, ?_⟩, fun hn => ⟨.negativeShift, rfl, ?_, ?_⟩⟩
  · obtain ⟨z, hz, hw⟩ := onNumbers_wraps hf hx hy
    exact ⟨z.toValue, by rw [apply_of_num? op hax hby, hz]; rfl, hw⟩
  · obtain ⟨w, hw, hval⟩ := Num.shl_integer hx hy hn
    exact ⟨w, by rw [apply_of_num? .shl hax hby, onNumbers, hw]; rfl, hval⟩
  · obtain ⟨w, hw, hval⟩ := Num.shr_integer hx hy hn
    exact ⟨w, by rw [apply_of_num? .shr hax hby, onNumbers, hw]; rfl, hval⟩
  · rw [apply_of_num? .shl hax hby, onNumbers, Num.shl, Num.shiftBase_integer _ hx,
      Num.shiftAmount_integer _ hy, if_pos hn]
    rfl
  · rw [apply_of_num? .shr hax hby, onNumbers, Num.shr, Num.shiftBase_integer _ hx,
      Num.shiftAmount_integer _ hy, if_pos hn]
    rfl

/-- An int below zero beside the largest word, which 64 bits take for the same thing and the whole
numbers do not; a shift farther than the width; and one that goes a negative way. -/
theorem Operator.apply_wraps_mixed :
    ((∃ v, Operator.mul.apply (.int (-1)) (.uint 0xFFFFFFFFFFFFFFFF) = .ok v ∧
        v.Wraps (-1 * (2 ^ 64 - 1))) ∧
      Operator.mul.apply (.int (-1)) (.uint 0xFFFFFFFFFFFFFFFF) = .ok (.uint 1)) ∧
    (∃ w, Operator.shr.apply (.int (-1)) (.uint 63) = .ok (.uint w) ∧
      (w.toNat : ℤ) = -1 % 2 ^ 64 / 2 ^ (63 : ℤ).toNat) ∧
    (∃ w, Operator.shl.apply (.bool true) (.uint 70) = .ok (.uint w) ∧
      (w.toNat : ℤ) = 1 * 2 ^ (70 : ℤ).toNat % 2 ^ 64) ∧
    ∃ e : Fault, e.kind = .misc ∧ Operator.shl.apply (.uint 1) (.int (-1)) = .error e ∧
      Operator.shr.apply (.uint 1) (.int (-1)) = .error e :=
  ⟨⟨(apply_wraps rfl rfl).1 .mul _ rfl, by decide⟩, ((apply_wraps rfl rfl).2.1 (by decide)).2,
    ((apply_wraps rfl rfl).2.1 (by decide)).1, (apply_wraps rfl rfl).2.2 (by decide)⟩

/-! ### Division -/

section Division

variable {x y : Num} {m n : ℤ}

theorem ofInt_tdiv_mul_add_tmod (m n : ℤ) :
    Int32.ofInt (m.tdiv n) * Int32.ofInt n + Int32.ofInt (m.tmod n) = Int32.ofInt m := by
  rw [← Int32.ofInt_mul, ← Int32.ofInt_add, Int.tdiv_mul_add_tmod]

/-- Also where the quotient overflows, at the lowest int divided by -1. -/
theorem int_div_mul_add_mod (i j : Int32) : i / j * j + i % j = i := by
  have hq : i / j = Int32.ofInt (i.toInt.tdiv j.toInt) := by
    rw [int_eq_ofInt_iff, Int32.toInt_div]
    exact Int.bmod_emod
  have hr : i % j = Int32.ofInt (i.toInt.tmod j.toInt) := by
    rw [int_eq_ofInt_iff, Int32.toInt_mod]
  calc i / j * j + i % j
      = Int32.ofInt (i.toInt.tdiv j.toInt) * Int32.ofInt j.toInt + Int32.ofInt (i.toInt.tmod j.toInt) := by
        rw [hq, hr, ← int_eq j]
    _ = i := by rw [ofInt_tdiv_mul_add_tmod, ← int_eq i]

theorem uint_div_mul_add_mod (u w : UInt64) : u / w * w + u % w = u := by
  rw [← UInt64.toNat_inj, UInt64.toNat_add, UInt64.toNat_mul, UInt64.toNat_div, UInt64.toNat_mod,
    Nat.mod_add_mod, Nat.div_add_mod', Nat.mod_eq_of_lt u.toNat_lt]

theorem Num.isIntegral_of_integer? (hx : x.integer? = some m) : x.isIntegral = true := by
  cases x with
  | int | uint => rfl
  | real => cases hx

theorem Num.isZero_integer (hy : y.integer? = some n) (h0 : n ≠ 0) : y.isZero = false := by
  cases y with
  | int j =>
    obtain rfl := Option.some.inj hy
    exact beq_false_of_ne fun h => h0 (by rw [h]; rfl)
  | uint w =>
    obtain rfl := Option.some.inj hy
    exact beq_false_of_ne fun h => h0 (by rw [h]; rfl)
  | real => cases hy

theorem int_ne_zero {j : Int32} (h : j.toInt ≠ 0) : j ≠ 0 := by
  rintro rfl
  exact h rfl

theorem uint_ne_zero {w : UInt64} (h : (w.toNat : ℤ) ≠ 0) : w ≠ 0 := by
  rintro rfl
  exact h rfl

theorem widen_ne_zero {j : Int32} (h : j.toInt ≠ 0) : Num.widen j ≠ 0 := by
  have hj := j.le_toInt
  have hj' := j.toInt_lt
  refine uint_ne_zero ?_
  rw [Num.widen, toNat_ofInt]
  omega

/-- In 128 bits nothing gets bigger by dividing. -/
def Num.Division.Lessens (d : Num.Division) : Prop := ∀ m n, (d.wide m n).natAbs ≤ m.natAbs

theorem Num.lessens_quotient : quotient.Lessens := fun m n => by
  rw [quotient, Int.natAbs_tdiv]
  exact Nat.div_le_self _ _

theorem Num.lessens_remainder : remainder.Lessens := fun m n => by
  rw [remainder, Int.natAbs_tmod]
  exact Nat.mod_le _ _

theorem Num.Division.Lessens.onWide {d : Num.Division} (hd : d.Lessens) (u : UInt64) (h0 : n ≠ 0) :
    d.onWide u.toNat n = .ok (.int (.ofInt (d.wide u.toNat n))) := by
  have hu := u.toNat_lt
  have hle := hd u.toNat n
  rw [Division.onWide, if_neg h0]
  exact ofWide_of_lt (by unfold wideEnd; omega)

/-- Row by row, the quotient, the remainder, their product with the divisor and the sum have one width:
64 bits where both operands are brought to words, else 32. -/
theorem Num.quotient_mul_add_remainder (hx : x.integer? = some m) (hy : y.integer? = some n) (h0 : n ≠ 0) :
    ∃ q r, quotient.apply x y = .ok q ∧ remainder.apply x y = .ok r ∧ ((q.mul y).add r).toValue.Wraps m := by
  obtain ⟨i, j, rfl, rfl, rfl, rfl⟩ | ⟨i, w, rfl, rfl, rfl, rfl⟩ | ⟨u, j, rfl, rfl, rfl, rfl⟩ |
    ⟨u, w, rfl, rfl, rfl, rfl⟩ := Num.integer_cases hx hy
  · have hj := int_ne_zero h0
    refine ⟨_, _, quotient.onInts_of_ne i hj, remainder.onInts_of_ne i hj, ?_⟩
    exact int_eq_ofInt_iff.1 ((int_div_mul_add_mod i j).trans (int_eq i))
  · have hw := uint_ne_zero h0
    refine ⟨_, _, quotient.onWords_of_ne (widen i) hw, remainder.onWords_of_ne (widen i) hw, ?_⟩
    exact uint_eq_ofInt_iff.1 (uint_div_mul_add_mod (widen i) w)
  · by_cases hj : j < 0
    · simp only [Division.apply, if_pos hj, lessens_quotient.onWide u h0, lessens_remainder.onWide u h0]
      refine ⟨_, _, rfl, rfl, int_eq_ofInt_iff.1 ?_⟩
      calc Int32.ofInt ((u.toNat : ℤ).tdiv j.toInt) * j + Int32.ofInt ((u.toNat : ℤ).tmod j.toInt)
          = Int32.ofInt ((u.toNat : ℤ).tdiv j.toInt) * Int32.ofInt j.toInt +
              Int32.ofInt ((u.toNat : ℤ).tmod j.toInt) := by rw [← int_eq j]
        _ = Int32.ofInt u.toNat := ofInt_tdiv_mul_add_tmod u.toNat j.toInt
    · have hw := widen_ne_zero h0
      simp only [Division.apply, if_neg hj, quotient.onWords_of_ne u hw, remainder.onWords_of_ne u hw]
      refine ⟨_, _, rfl, rfl, ?_⟩
      simp only [mul, if_neg hj]
      exact uint_eq_ofInt_iff.1 ((uint_div_mul_add_mod u (widen j)).trans (uint_eq u))
  · have hw := uint_ne_zero h0
    refine ⟨_, _, quotient.onWords_of_ne u hw, remainder.onWords_of_ne u hw, ?_⟩
    exact uint_eq_ofInt_iff.1 ((uint_div_mul_add_mod u w).trans (uint_eq u))

/-- Division of whole numbers of any kinds by one other than zero: quotient and remainder exist, and
multiplying and adding them with the same operators gives the dividend back, up to the width of the
result. -/
theorem Operator.division_identity {a b : Value} {m n : ℤ} (ha : a.integer? = some m)
    (hb : b.integer? = some n) (h0 : n ≠ 0) :
    ∃ q r p s, Operator.idiv.apply a b = .ok q ∧ Operator.rem.apply a b = .ok r ∧
      Operator.mul.apply q b = .ok p ∧ Operator.add.apply p r = .ok s ∧ s.Wraps m := by
  obtain ⟨x, hax, hx⟩ := Value.num?_of_integer? ha
  obtain ⟨y, hby, hy⟩ := Value.num?_of_integer? hb
  obtain ⟨q, r, hq, hr, hwraps⟩ := Num.quotient_mul_add_remainder hx hy h0
  have hidiv : x.idiv y = .ok q := by
    simp [Num.idiv, Num.isIntegral_of_integer? hy, Num.isZero_integer hy h0, hq]
  have hrem : x.rem y = .ok r := by
    simp [Num.rem, Num.isIntegral_of_integer? hx, Num.isIntegral_of_integer? hy, Num.isZero_integer hy h0, hr]
  refine ⟨q.toValue, r.toValue, (q.mul y).toValue, ((q.mul y).add r).toValue, ?_, ?_, ?_, ?_, hwraps⟩
  · rw [apply_of_num? .idiv hax hby, onNumbers, hidiv]; rfl
  · rw [apply_of_num? .rem hax hby, onNumbers, hrem]; rfl
  · exact apply_of_num? .mul (Num.num?_toValue _) hby
  · exact apply_of_num? .add (Num.num?_toValue _) (Num.num?_toValue _)

/-- The lowest int divided by -1: the quotient wraps to the dividend, and so does its product. -/
theorem Operator.division_identity_lowest :
    (∃ q r p s, Operator.idiv.apply (.int Int32.minValue) (.int (-1)) = .ok q ∧
      Operator.rem.apply (.int Int32.minValue) (.int (-1)) = .ok r ∧
      Operator.mul.apply q (.int (-1)) = .ok p ∧ Operator.add.apply p r = .ok s ∧ s.Wraps (-2 ^ 31)) ∧
    Operator.idiv.apply (.int Int32.minValue) (.int (-1)) = .ok (.int Int32.minValue) :=
  ⟨division_identity rfl rfl (by decide), by decide⟩

end Division

end ScriptVm
