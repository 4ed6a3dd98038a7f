import ScriptVm.Proofs.ExactCasts
import ScriptVm.Proofs.WordArithmetic

/-! Coercion beside the exact cast. What an exact cast gives, the coercion gives too, with one exception:
a real comes to an unsigned word by way of the signed ones, and from 2^63 on is clamped to the largest
of these, though the exact cast keeps it up to 2^64. A coercion in place either puts the re-tagged
result in place of the value or leaves the value alone. -/

namespace ScriptVm

open Binary64

def signedTop : UInt64 := 0x7FFFFFFFFFFFFFFF

/-- What the way through signed words leaves of an unsigned one. -/
def CastTarget.clip : (t : CastTarget) → t.Carrier → t.Carrier
  | .uint64, n => if n ≤ signedTop then n else signedTop
  | .size, n => if n ≤ signedTop then n else signedTop
  | _, x => x

namespace Value

variable {v : Value} {t : CastTarget} {n lo hi : Int}

inductive IsWhole : Value → Int → Prop
  | bool (b : Bool) : IsWhole (.bool b) (if b then 1 else 0)
  | int (i : Int32) : IsWhole (.int i) i.toInt
  | uint (w : UInt64) : IsWhole (.uint w) w.toNat
  | real (x : Binary64) (h : x.isIntegral = true) : IsWhole (.real x) x.trunc

theorem within_eq_ok {m : Int} (h : v.within t lo hi m = .ok n) : m = n ∧ lo ≤ n ∧ n ≤ hi := by
  unfold within at h
  split_ifs at h with hr
  obtain rfl := Except.ok.inj h
  exact ⟨rfl, hr⟩

theorem within_of_mem (h0 : lo ≤ n) (h1 : n ≤ hi) : v.within t lo hi n = .ok n := if_pos ⟨h0, h1⟩

theorem isWhole_of_whole (h0 : lo ≤ 0) (h1 : 1 ≤ hi) (h : v.whole t lo hi = .ok n) :
    v.IsWhole n ∧ lo ≤ n ∧ n ≤ hi := by
  cases v with
  | bool b =>
    obtain rfl := Except.ok.inj h
    refine ⟨.bool b, ?_⟩
    cases b
    · exact ⟨h0, by omega⟩
    · exact ⟨by omega, h1⟩
  | int i =>
    obtain ⟨rfl, hr⟩ := within_eq_ok h
    exact ⟨.int i, hr⟩
  | uint w =>
    obtain ⟨rfl, hr⟩ := within_eq_ok h
    exact ⟨.uint w, hr⟩
  | real x =>
    simp only [whole] at h
    split_ifs at h with hx
    obtain ⟨rfl, hr⟩ := within_eq_ok h
    exact ⟨.real x hx, hr⟩
  | _ => cases h

/-! ### One target after the other -/

theorem two_mul_units_half : 2 * half.units = scale := by decide +kernel

theorem half_le_iff {x : Binary64} (hx : x.isNaN = false) :
    half.le x = true ↔ (scale : Int) ≤ 2 * x.units := by
  have hh : half.isNaN = false := by decide
  rw [← two_mul_units_half, le, compare?, hh, hx]
  simp [← Int.not_lt, ← Int.compare_eq_gt]

theorem coerce_bool (h : v.IsWhole n) (h0 : 0 ≤ n) (h1 : n ≤ 1) :
    v.coerce .bool = .ok (decide (n = 1)) := by
  cases h with
  | bool b => cases b <;> rfl
  | int i => exact congrArg Except.ok (decide_eq_decide.2 (by omega))
  | uint w =>
    refine congrArg Except.ok (decide_eq_decide.2 ?_)
    rw [Ne, ← UInt64.toNat_inj]
    simp
    omega
  | real x hx =>
    have hu := units_of_isIntegral hx
    refine congrArg Except.ok ?_
    rw [Bool.eq_iff_iff, decide_eq_true_iff, half_le_iff (isNaN_of_isIntegral hx), hu]
    have hs := scale_pos
    constructor
    · intro h
      by_contra hn
      rw [show x.trunc = 0 by omega, Int.zero_mul] at h
      omega
    · intro h
      rw [h, Int.one_mul]
      omega

theorem coerce_int (h : v.IsWhole n) (h0 : Int32.minValue.toInt ≤ n) (h1 : n ≤ Int32.maxValue.toInt) :
    v.coerce .int = .ok (Int32.ofInt n) := by
  cases h with
  | bool b => cases b <;> rfl
  | int i => exact congrArg Except.ok (Int32.ofInt_toInt i).symm
  | uint w => rfl
  | real x hx =>
    exact congrArg (fun n => Except.ok (Int32.ofInt n)) (saturate_of_mem (isNaN_of_isIntegral hx) h0 h1)

theorem coerce_int64 (h : v.IsWhole n) (h0 : Int64.minValue.toInt ≤ n) (h1 : n ≤ Int64.maxValue.toInt) :
    v.coerce .int64 = .ok (Int64.ofInt n) := by
  cases h with
  | bool b => cases b <;> rfl
  | int i =>
    refine congrArg Except.ok (Int64.toInt_inj.1 ?_)
    rw [Int64.toInt_ofInt, toNat_ofInt, Int64.toInt_ofInt]
    exact Int.emod_bmod i.toInt Int64.size
  | uint w => rfl
  | real x hx =>
    exact congrArg (fun n => Except.ok (Int64.ofInt n)) (saturate_of_mem (isNaN_of_isIntegral hx) h0 h1)

theorem ofInt_min (h0 : 0 ≤ n) (h1 : n ≤ UInt64.size - 1) :
    UInt64.ofInt (min (2 ^ 63 - 1) n) = CastTarget.uint64.clip (UInt64.ofInt n) := by
  have hn : ((UInt64.ofInt n).toNat : Int) = n := by
    rw [toNat_ofInt]
    exact Int.emod_eq_of_lt h0 (Int.lt_add_one_of_le h1)
  have hle : UInt64.ofInt n ≤ signedTop ↔ n ≤ 2 ^ 63 - 1 := by
    rw [UInt64.le_iff_toNat_le, show signedTop.toNat = 2 ^ 63 - 1 from rfl]
    omega
  by_cases h : n ≤ 2 ^ 63 - 1
  · rw [CastTarget.clip, if_pos (hle.2 h), min_eq_right h]
  · rw [CastTarget.clip, if_neg (mt hle.1 h), min_eq_left (by omega)]
    rfl

/-- The one coercion that falls short: between the largest signed word and the largest unsigned one. -/
theorem word_of_isWhole (h : v.IsWhole n) (h0 : 0 ≤ n) (h1 : n ≤ UInt64.size - 1) :
    v.word t = .ok (if v.kind = .real then CastTarget.uint64.clip (UInt64.ofInt n) else UInt64.ofInt n) := by
  cases h with
  | bool b => cases b <;> rfl
  | int i => rfl
  | uint w => exact congrArg Except.ok (ofInt_toNat w).symm
  | real x hx =>
    have hs : x.saturate Int64.minValue.toInt Int64.maxValue.toInt x.trunc = min (2 ^ 63 - 1) x.trunc := by
      simp only [saturate, isNaN_of_isIntegral hx, clamp, Bool.false_eq_true, if_false,
        Int64.toInt_minValue, Int64.toInt_maxValue]
      omega
    have hword : x.toInt64.toInt = min (2 ^ 63 - 1) x.trunc := by
      rw [toInt64, hs, Int64.toInt_ofInt_of_le] <;> omega
    rw [word, hword, ofInt_min h0 h1]
    rfl

theorem coerce_real {x : Binary64} (h : v.exact .real = .ok x) : v.coerce .real = .ok x := by
  cases v with
  | bool b => rw [← h]; cases b <;> rfl
  | int i => exact h
  | uint w =>
    simp only [exact] at h
    split_ifs at h
    exact h
  | real y => exact h
  | _ => cases h

theorem exact_of_retag? {x : t.Carrier} {w : Value} (h : t.retag? x = some w) : w.exact t = .ok x := by
  cases t with
  | bool => obtain rfl := Option.some.inj h; cases x <;> rfl
  | int =>
    obtain rfl := Option.some.inj h
    rw [exact, whole, within_of_mem x.minValue_le_toInt x.toInt_le, Except.map, Int32.ofInt_toInt]
  | uint64 =>
    obtain rfl := Option.some.inj h
    rw [exact, whole, within_of_mem (Int.natCast_nonneg _) (toNat_le_size x), Except.map, ofInt_toNat]
  | real | string | pointer => obtain rfl := Option.some.inj h; rfl
  | int64 | size => cases h

theorem coerce_unclipped {x : t.Carrier} (hu : t ≠ .uint64) (hs : t ≠ .size) (h : v.coerce t = .ok x) :
    v.coerce t = .ok (if v.kind = .real then t.clip x else x) := by
  have hclip : t.clip x = x := by
    cases t with
    | uint64 => exact absurd rfl hu
    | size => exact absurd rfl hs
    | _ => rfl
  rw [h, hclip, ite_self]

theorem map_eq_ok {α β : Type} {r : Except Fault α} {f : α → β} {y : β} (h : r.map f = .ok y) :
    ∃ x, r = .ok x ∧ f x = y := by
  cases r with
  | error e => cases h
  | ok x => exact ⟨x, rfl, Except.ok.inj h⟩

/-- A target that holds a range of whole numbers: it is enough to look at the coercion of these. -/
theorem Ranges.coerces {hold : Int → t.Carrier} {x : t.Carrier} (h : Ranges t lo hi hold)
    (hcoerce : ∀ n, v.IsWhole n → lo ≤ n → n ≤ hi →
      v.coerce t = .ok (if v.kind = .real then t.clip (hold n) else hold n)) (hx : v.exact t = .ok x) :
    v.coerce t = .ok (if v.kind = .real then t.clip x else x) := by
  obtain ⟨n, hn, rfl⟩ := map_eq_ok ((h.cast v).symm.trans hx)
  obtain ⟨hv, h0, h1⟩ := isWhole_of_whole h.zero h.one hn
  exact hcoerce n hv h0 h1

/-! ### The cast and the coercion -/

/-- A value that is cast exactly is coerced to the same, save that a real comes to an unsigned word no
larger than the largest signed one. A coercion in place tags what the coercion gives with the kind of the
target, from which it can be read back; if there is nothing, the value stays. -/
theorem coerce_of_exact (v : Value) (t : CastTarget) :
    (∀ x, v.exact t = .ok x → v.coerce t = .ok (if v.kind = .real then t.clip x else x)) ∧
    (∀ x w, v.coerce t = .ok x → t.retag? x = some w →
      v.coerceInPlace t = (.ok (), w) ∧ w.exact t = .ok x) ∧
    (∀ e, v.coerce t = .error e → v.coerceInPlace t = (.error e, v)) := by
  refine ⟨fun x hx => ?_, fun x w hx hw => ⟨?_, exact_of_retag? hw⟩, fun e he => ?_⟩
  · cases t with
    | bool => exact ranges_bool.coerces (fun _ hv h0 h1 => coerce_unclipped nofun nofun (coerce_bool hv h0 h1)) hx
    | int => exact ranges_int.coerces (fun _ hv h0 h1 => coerce_unclipped nofun nofun (coerce_int hv h0 h1)) hx
    | int64 =>
      exact ranges_int64.coerces (fun _ hv h0 h1 => coerce_unclipped nofun nofun (coerce_int64 hv h0 h1)) hx
    | uint64 => exact ranges_uint64.coerces (fun _ hv h0 h1 => word_of_isWhole hv h0 h1) hx
    | size => exact ranges_size.coerces (fun _ hv h0 h1 => word_of_isWhole hv h0 h1) hx
    | real => exact coerce_unclipped nofun nofun (coerce_real hx)
    | string => exact coerce_unclipped nofun nofun hx
    | pointer => exact coerce_unclipped nofun nofun hx
  · simp only [coerceInPlace, hx, hw, Option.getD_some]
  · rw [coerceInPlace, he]

/-- 2^63 is no signed word: as an unsigned one the cast gives it and the coercion the word before it. A
real below that comes to the same both ways, and a string stays what it is. -/
theorem coerce_of_exact_edge :
    ((real (ofInt (2 ^ 63))).exact .uint64 = .ok 0x8000000000000000 ∧
      (real (ofInt (2 ^ 63))).coerce .uint64 = .ok signedTop ∧
      (real (ofInt (2 ^ 63))).coerceInPlace .uint64 = (.ok (), .uint signedTop)) ∧
    ((real (ofInt (2 ^ 62))).exact .uint64 = .ok 0x4000000000000000 ∧
      (real (ofInt (2 ^ 62))).coerce .uint64 = .ok 0x4000000000000000) ∧
    (string "1").coerceInPlace .int = (.error (.incompatible "string" "int"), string "1") := by
  have hedge : (real (ofInt (2 ^ 63))).exact .uint64 = .ok 0x8000000000000000 := by decide +kernel
  have hbelow : (real (ofInt (2 ^ 62))).exact .uint64 = .ok 0x4000000000000000 := by decide +kernel
  have hclamped : (real (ofInt (2 ^ 63))).coerce .uint64 = .ok signedTop := (coerce_of_exact _ _).1 _ hedge
  exact ⟨⟨hedge, hclamped, ((coerce_of_exact _ _).2.1 _ _ hclamped rfl).1⟩,
    ⟨hbelow, (coerce_of_exact _ _).1 _ hbelow⟩, (coerce_of_exact _ _).2.2 _ rfl⟩

theorem coerce_loses_exact : ¬∀ (v : Value) (t : CastTarget) (x : t.Carrier),
    v.exact t = .ok x → v.coerce t = .ok x := by
  intro h
  have hedge : (real (ofInt (2 ^ 63))).exact .uint64 = .ok 0x8000000000000000 := by decide +kernel
  have hclamped : (real (ofInt (2 ^ 63))).coerce .uint64 = .ok signedTop := by decide +kernel
  cases hclamped.symm.trans (h _ _ _ hedge)

end Value
end ScriptVm
