import ScriptVm.Value.Cast
import ScriptVm.Proofs.Rounding
import Mathlib.Data.Rat.Cast.Defs
import Mathlib.Tactic.NormNum

/-! The exact cast loses nothing and refuses nothing it could keep. Both sides are read as rational
numbers: a value denotes one, and so does whatever a numeric target holds. The cast of a number succeeds
exactly if the target has that number, and gives what denotes it. -/

namespace ScriptVm

open Binary64

def Binary64.number? (x : Binary64) : Option ℚ :=
  if x.isFinite then some (x.units / scale) else none

/-- The number a value denotes; a truth value counts as 0 or 1. -/
def Value.number? : Value → Option ℚ
  | .bool b => some (if b then 1 else 0)
  | .int i => some i.toInt
  | .uint n => some n.toNat
  | .real x => x.number?
  | _ => none

namespace CastTarget

/-- The number that what a target holds denotes. -/
def number? : (t : CastTarget) → t.Carrier → Option ℚ
  | .bool, b => some (if b then 1 else 0)
  | .int, i => some i.toInt
  | .int64, i => some i.toInt
  | .uint64, n => some n.toNat
  | .size, n => some n.toNat
  | .real, x => x.number?
  | .string, _ => none
  | .pointer, _ => none

/-- Whether the value is of a kind that the target takes at all. -/
def accepts (t : CastTarget) (v : Value) : Bool :=
  match t with
  | .string => v.kind == .string
  | .pointer => v.kind == .pointer
  | _ => v.isNumeric

end CastTarget

theorem Binary64.number?_eq_whole {x : Binary64} {n : Int} :
    x.number? = some (n : ℚ) ↔ x.isFinite = true ∧ x.units = n * scale := by
  have hs : (scale : ℚ) ≠ 0 := by exact_mod_cast scale_pos.ne'
  by_cases hf : x.isFinite = true
  · simp only [number?, hf, if_true, Option.some_inj, true_and, div_eq_iff hs]
    exact_mod_cast Iff.rfl
  · simp [number?, hf]

namespace Value

variable {v : Value} {t : CastTarget} {q : ℚ} {lo hi : Int}

/-! ### Whole numbers between two ends -/

/-- A value that denotes `q` passes as the whole number that `q` is, if that lies between the ends. -/
def Passes (v : Value) (t : CastTarget) (lo hi : Int) (q : ℚ) (r : Except Fault Int) : Prop :=
  (∃ n : Int, r = .ok n ∧ lo ≤ n ∧ n ≤ hi ∧ (n : ℚ) = q) ∨
    (r = .error (.outOfRange v.kind.name t.name) ∧ ∀ n : Int, lo ≤ n → n ≤ hi → (n : ℚ) ≠ q)

theorem within_passes (v : Value) (t : CastTarget) (lo hi n : Int) :
    v.Passes t lo hi n (v.within t lo hi n) := by
  unfold within
  split_ifs with h
  · exact .inl ⟨n, rfl, h.1, h.2, rfl⟩
  · refine .inr ⟨rfl, fun m hl hh hm => h ?_⟩
    obtain rfl : m = n := by exact_mod_cast hm
    exact ⟨hl, hh⟩

theorem whole_passes (h0 : lo ≤ 0) (h1 : 1 ≤ hi) (hq : v.number? = some q) :
    v.Passes t lo hi q (v.whole t lo hi) := by
  cases v with
  | bool b =>
    obtain rfl := Option.some.inj hq
    cases b
    · exact .inl ⟨0, rfl, h0, by omega, by simp⟩
    · exact .inl ⟨1, rfl, by omega, h1, by simp⟩
  | int i =>
    obtain rfl := Option.some.inj hq
    exact within_passes _ t lo hi i.toInt
  | uint n =>
    obtain rfl := Option.some.inj hq
    exact_mod_cast within_passes (.uint n) t lo hi n.toNat
  | real x =>
    have hf : x.isFinite = true := by
      by_contra h
      simp [number?, Binary64.number?, h] at hq
    simp only [whole]
    split_ifs with hx
    · have hn : x.number? = some (x.trunc : ℚ) :=
        number?_eq_whole.2 ⟨hf, units_of_dvd ((isIntegral_iff hf).1 hx)⟩
      obtain rfl : (x.trunc : ℚ) = q := Option.some.inj (hn.symm.trans hq)
      exact within_passes _ t lo hi x.trunc
    · refine .inr ⟨rfl, fun n _ _ hn => hx ?_⟩
      obtain rfl := hn
      rw [isIntegral_iff hf, unitsAbs_of_units (number?_eq_whole.1 hq).2]
      exact Nat.dvd_mul_left _ _
  | _ => cases hq

theorem whole_special {x : Binary64} (hx : x.isFinite = false) (h0 : -2 ^ 64 < lo) (h1 : hi < 2 ^ 64) :
    (Value.real x).whole t lo hi = .error (.outOfRange (Value.real x).kind.name t.name) := by
  simp only [whole, within]
  split_ifs with hint hr
  · have hinf : x.isInfinite = true := by
      simp only [Binary64.isIntegral, Bool.and_eq_true, Bool.not_eq_true'] at hint
      simpa [isFinite, hint.1] using hx
    have := le_natAbs_trunc hinf
    omega
  · rfl
  · rfl

theorem whole_mismatch (h : v.isNumeric = false) :
    v.whole t lo hi = .error (.incompatible v.kind.name t.name) := by
  cases v with
  | bool | int | uint | real => cases h
  | _ => rfl

theorem whole_fault {e : Fault} (hv : v.isNumeric = true) (h : v.whole t lo hi = .error e) :
    e = .outOfRange v.kind.name t.name := by
  cases v with
  | bool b => cases h
  | int i => simp only [whole, within] at h; split_ifs at h; exact (Except.error.inj h).symm
  | uint n => simp only [whole, within] at h; split_ifs at h; exact (Except.error.inj h).symm
  | real x => simp only [whole, within] at h; split_ifs at h <;> exact (Except.error.inj h).symm
  | _ => cases hv

/-! ### Whole-number targets -/

/-- The target holds the whole numbers between two ends, zero and one among them, and its cast passes
those. -/
structure Ranges (t : CastTarget) (lo hi : Int) (hold : Int → t.Carrier) : Prop where
  cast : ∀ v : Value, v.exact t = (v.whole t lo hi).map hold
  accepts : ∀ v : Value, t.accepts v = v.isNumeric
  above : -2 ^ 64 < lo
  zero : lo ≤ 0
  one : 1 ≤ hi
  below : hi < 2 ^ 64
  holds : ∀ n, lo ≤ n → n ≤ hi → t.number? (hold n) = some (n : ℚ)
  only : ∀ x, ∃ n : Int, lo ≤ n ∧ n ≤ hi ∧ t.number? x = some (n : ℚ)

theorem ranges_bool : Ranges .bool 0 1 (fun n => decide (n = 1)) where
  cast _ := rfl
  accepts _ := rfl
  above := by decide
  zero := le_rfl
  one := le_rfl
  below := by decide
  holds n h0 h1 := by
    obtain rfl | rfl : n = 0 ∨ n = 1 := by omega
    · rfl
    · rfl
  only
    | false => ⟨0, by decide, by decide, rfl⟩
    | true => ⟨1, by decide, by decide, rfl⟩

theorem ranges_int : Ranges .int Int32.minValue.toInt Int32.maxValue.toInt Int32.ofInt where
  cast _ := rfl
  accepts _ := rfl
  above := by decide
  zero := by decide
  one := by decide
  below := by decide
  holds n h0 h1 := by
    have h := Int32.toInt_ofInt_of_le h0 (Int.lt_add_one_of_le h1)
    simp [CastTarget.number?, h]
  only x := ⟨x.toInt, x.minValue_le_toInt, x.toInt_le, rfl⟩

theorem ranges_int64 : Ranges .int64 Int64.minValue.toInt Int64.maxValue.toInt Int64.ofInt where
  cast _ := rfl
  accepts _ := rfl
  above := by decide
  zero := by decide
  one := by decide
  below := by decide
  holds n h0 h1 := by
    have h := Int64.toInt_ofInt_of_le h0 (Int.lt_add_one_of_le h1)
    simp [CastTarget.number?, h]
  only x := ⟨x.toInt, x.minValue_le_toInt, x.toInt_le, rfl⟩

theorem toNat_ofInt_of_le {n : Int} (h0 : 0 ≤ n) (h1 : n ≤ UInt64.size - 1) :
    ((UInt64.ofInt n).toNat : ℚ) = n := by
  have h : ((UInt64.ofInt n).toNat : Int) = n := by
    simp [UInt64.ofInt, UInt64.size] at *
    omega
  exact_mod_cast h

theorem toNat_le_size (x : UInt64) : (x.toNat : Int) ≤ UInt64.size - 1 := by
  have := x.toNat_lt_size
  omega

theorem ranges_uint64 : Ranges .uint64 0 (UInt64.size - 1) UInt64.ofInt where
  cast _ := rfl
  accepts _ := rfl
  above := by decide
  zero := le_rfl
  one := by decide
  below := by decide
  holds _ h0 h1 := congrArg some (toNat_ofInt_of_le h0 h1)
  only x := ⟨x.toNat, Int.natCast_nonneg _, toNat_le_size x, rfl⟩

theorem ranges_size : Ranges .size 0 (UInt64.size - 1) UInt64.ofInt :=
  { ranges_uint64 with cast := fun _ => rfl, accepts := fun _ => rfl }

/-! ### Casts, target by target -/

/-- The cast of a value that denotes `q` gives what denotes `q`, or fails because nothing does. -/
def Faithful (v : Value) (t : CastTarget) (q : ℚ) : Prop :=
  (∃ x, v.exact t = .ok x ∧ t.number? x = some q) ∨
    ((∃ e, v.exact t = .error e) ∧ ∀ x, t.number? x ≠ some q)

theorem Faithful.succeeds_iff (h : v.Faithful t q) :
    (∃ x, v.exact t = .ok x) ↔ ∃ x, t.number? x = some q := by
  rcases h with ⟨x, hx, hn⟩ | ⟨⟨e, he⟩, hnone⟩
  · exact ⟨fun _ => ⟨x, hn⟩, fun _ => ⟨x, hx⟩⟩
  · exact ⟨fun ⟨_, hx⟩ => (nomatch he.symm.trans hx), fun ⟨x, hn⟩ => absurd hn (hnone x)⟩

theorem Faithful.denotes {x : t.Carrier} (h : v.Faithful t q) (hx : v.exact t = .ok x) :
    t.number? x = some q := by
  rcases h with ⟨y, hy, hn⟩ | ⟨⟨e, he⟩, -⟩
  · obtain rfl : y = x := Except.ok.inj (hy.symm.trans hx)
    exact hn
  · cases he.symm.trans hx

structure Exacting (t : CastTarget) : Prop where
  number : ∀ (v : Value) (q : ℚ), v.number? = some q → v.Faithful t q
  special : ∀ x : Binary64, x.isFinite = false → t ≠ .real → ∃ e, (Value.real x).exact t = .error e
  mismatch : ∀ v : Value, t.accepts v = false → v.exact t = .error (.incompatible v.kind.name t.name)
  range : ∀ (v : Value) (e : Fault), t.accepts v = true → v.exact t = .error e →
    e = .outOfRange v.kind.name t.name

theorem Ranges.exacting {hold : Int → t.Carrier} (h : Ranges t lo hi hold) : Exacting t where
  number v q hq := by
    rcases whole_passes (t := t) h.zero h.one hq with ⟨n, hn, hl, hu, rfl⟩ | ⟨hn, hnone⟩
    · exact .inl ⟨hold n, by rw [h.cast, hn]; rfl, h.holds n hl hu⟩
    · refine .inr ⟨⟨_, by rw [h.cast, hn]; rfl⟩, fun x hx => ?_⟩
      obtain ⟨n, hl, hu, hn'⟩ := h.only x
      exact hnone n hl hu (Option.some.inj (hn'.symm.trans hx))
  special x hx _ := ⟨_, by rw [h.cast, whole_special hx h.above h.below]; rfl⟩
  mismatch v hv := by rw [h.cast, whole_mismatch ((h.accepts v).symm.trans hv)]; rfl
  range v e hv he := by
    rw [h.cast] at he
    cases hw : v.whole t lo hi with
    | ok n => rw [hw] at he; cases he
    | error e' =>
      rw [hw] at he
      obtain rfl : e' = e := Except.error.inj he
      exact whole_fault ((h.accepts v).symm.trans hv) hw

theorem number?_ofInt {n : Int} (hn : n.natAbs < 2 ^ 64) (h : (ofInt n).units = n * scale) :
    (ofInt n).number? = some (n : ℚ) :=
  number?_eq_whole.2 ⟨(ofInt_of_lt hn).2.2, h⟩

/-- Bools and ints have 53 bits at most. A uint that has more is cast if its rounding keeps them. -/
theorem faithful_real (hq : v.number? = some q) : v.Faithful .real q := by
  cases v with
  | bool b =>
    obtain rfl := Option.some.inj hq
    refine .inl ⟨_, rfl, ?_⟩
    cases b
    · exact_mod_cast number?_ofInt (by decide) (units_ofInt_of_lt (by decide))
    · exact_mod_cast number?_ofInt (by decide) (units_ofInt_of_lt (by decide))
  | int i =>
    obtain rfl := Option.some.inj hq
    have h0 := i.le_toInt
    have h1 := i.toInt_lt
    exact .inl ⟨_, rfl, number?_ofInt (by omega) (units_ofInt_of_lt (by omega))⟩
  | uint n =>
    obtain rfl := Option.some.inj hq
    have hn : (n.toNat : Int).natAbs < 2 ^ 64 := by have := n.toNat_lt; omega
    by_cases h : (ofInt n.toNat).trunc = n.toNat
    · refine .inl ⟨ofInt n.toNat, if_pos h, ?_⟩
      exact_mod_cast number?_ofInt hn (units_ofInt_of_trunc hn h)
    · refine .inr ⟨⟨_, if_neg h⟩, fun x hx => h ?_⟩
      have hx : x.number? = some ((n.toNat : Int) : ℚ) := by exact_mod_cast hx
      exact trunc_of_units (units_ofInt_of_units hn (number?_eq_whole.1 hx).2)
  | real x => exact .inl ⟨x, rfl, hq⟩
  | _ => cases hq

theorem exacting_real : Exacting .real where
  number _ _ hq := faithful_real hq
  special _ _ h := absurd rfl h
  mismatch v hv := by
    cases v with
    | bool | int | uint | real => cases hv
    | _ => rfl
  range v e hv he := by
    cases v with
    | uint n =>
      simp only [exact] at he
      split_ifs at he
      exact (Except.error.inj he).symm
    | bool | int | real => cases he
    | _ => cases hv

/-- A target that takes one kind alone, and no number. -/
theorem exacting_of_own (hn : ∀ x, t.number? x = none)
    (h : ∀ v : Value, (t.accepts v = true ∧ v.isNumeric = false ∧ ∃ x, v.exact t = .ok x) ∨
      (t.accepts v = false ∧ v.exact t = v.incompatible t)) : Exacting t where
  number v q hq := by
    rcases h v with ⟨-, hv, -⟩ | ⟨-, he⟩
    · cases v with
      | bool | int | uint | real => cases hv
      | _ => cases hq
    · exact .inr ⟨⟨_, he⟩, fun x => by simp [hn]⟩
  special x _ _ := by
    rcases h (.real x) with ⟨-, hv, -⟩ | ⟨-, he⟩
    · cases hv
    · exact ⟨_, he⟩
  mismatch v hv := by
    rcases h v with ⟨ha, -, -⟩ | ⟨-, he⟩
    · cases ha.symm.trans hv
    · exact he
  range v e hv he := by
    rcases h v with ⟨-, -, x, hx⟩ | ⟨ha, -⟩
    · cases hx.symm.trans he
    · cases ha.symm.trans hv

theorem exacting_string : Exacting .string :=
  exacting_of_own (fun _ => rfl) fun v => by
    cases v with
    | string s => exact .inl ⟨rfl, rfl, s, rfl⟩
    | _ => exact .inr ⟨rfl, rfl⟩

theorem exacting_pointer : Exacting .pointer :=
  exacting_of_own (fun _ => rfl) fun v => by
    cases v with
    | pointer p => exact .inl ⟨rfl, rfl, p, rfl⟩
    | _ => exact .inr ⟨rfl, rfl⟩

theorem exacting : (t : CastTarget) → Exacting t
  | .bool => ranges_bool.exacting
  | .int => ranges_int.exacting
  | .int64 => ranges_int64.exacting
  | .uint64 => ranges_uint64.exacting
  | .size => ranges_size.exacting
  | .real => exacting_real
  | .string => exacting_string
  | .pointer => exacting_pointer

/-- An exact cast of a number succeeds exactly if the target has the number, and what it gives denotes
it. A NaN or an infinity is cast to a real only, and a real to itself, bit by bit; strings and pointers
are cast from their own kind only. A failure is a type-cast fault: between kinds that do not go together
an incompatibility, otherwise a number out of range. -/
theorem exact_iff_representable (v : Value) (t : CastTarget) :
    (∀ q, v.number? = some q →
      ((∃ x, v.exact t = .ok x) ↔ ∃ x, t.number? x = some q) ∧
        ∀ x, v.exact t = .ok x → t.number? x = some q) ∧
    (∀ r, v = .real r → r.isNaN = true ∨ r.isInfinite = true →
      ((∃ x, v.exact t = .ok x) ↔ t = .real)) ∧
    (∀ r, v = .real r → v.exact .real = .ok r) ∧
    (∀ s, v.exact .string = .ok s ↔ v = .string s) ∧
    (∀ p, v.exact .pointer = .ok p ↔ v = .pointer p) ∧
    (t.accepts v = false → v.exact t = .error (.incompatible v.kind.name t.name)) ∧
    (∀ e, v.exact t = .error e → e.kind = .typeCast ∧
      (t.accepts v = true → e = .outOfRange v.kind.name t.name)) := by
  have h := exacting t
  refine ⟨fun q hq => ?_, ?_, ?_, ?_, ?_, h.mismatch v, fun e he => ?_⟩
  · have hf := h.number v q hq
    exact ⟨hf.succeeds_iff, fun x hx => hf.denotes hx⟩
  · rintro r rfl hr
    have hfin : r.isFinite = false := by rcases hr with hr | hr <;> simp [isFinite, hr]
    constructor
    · rintro ⟨x, hx⟩
      by_contra ht
      obtain ⟨e, he⟩ := h.special r hfin ht
      cases he.symm.trans hx
    · rintro rfl
      exact ⟨r, rfl⟩
  · rintro r rfl
    rfl
  · cases v <;> simp [exact, incompatible]
  · cases v <;> simp [exact, incompatible]
  · cases ha : t.accepts v with
    | false =>
      obtain rfl := Except.error.inj ((h.mismatch v ha).symm.trans he)
      exact ⟨rfl, fun h => absurd h Bool.false_ne_true⟩
    | true =>
      obtain rfl := h.range v e ha he
      exact ⟨rfl, fun _ => rfl⟩

/-- Next to 2^53, at the largest uint64 and at 2^63, where a check by rounding to and fro lets pass what
the target has not: no real denotes 2^53 + 1, and 2^63 is a uint64 but no int64. -/
theorem exact_at_the_edges :
    (Value.uint 0x20000000000001).exact .real = .error (.outOfRange "uint64" "real") ∧
    (¬∃ x : Binary64, x.number? = some ((2 ^ 53 + 1 : Nat) : ℚ)) ∧
    (Value.uint 0xFFFFFFFFFFFFFFFF).exact .real = .error (.outOfRange "uint64" "real") ∧
    (Value.real (ofInt (2 ^ 63))).exact .int64 = .error (.outOfRange "real" "int64") ∧
    (Value.real (ofInt (2 ^ 63))).exact .uint64 = .ok 0x8000000000000000 := by
  have hodd : (Value.uint 0x20000000000001).exact .real = .error (.outOfRange "uint64" "real") := by
    decide +kernel
  have hnum : (Value.uint 0x20000000000001).number? = some ((2 ^ 53 + 1 : Nat) : ℚ) :=
    congrArg (fun m : Nat => some (m : ℚ)) (show UInt64.toNat 0x20000000000001 = 2 ^ 53 + 1 by decide)
  refine ⟨hodd, fun hx => ?_, by decide +kernel, by decide +kernel, by decide +kernel⟩
  obtain ⟨x, hx⟩ := ((exact_iff_representable (.uint 0x20000000000001) .real).1 _ hnum).1.2 hx
  cases hodd.symm.trans hx

end Value
end ScriptVm
