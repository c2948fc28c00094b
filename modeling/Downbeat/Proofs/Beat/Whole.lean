import Downbeat.Proofs.Beat.Exact

/-!
# Whole beats

A whole number below `2 ^ 53` is a beat without rounding (`Beat.value_ofNat`), and below that
bound whole beats are added as numbers are (`Beat.ofNat_add_ofNat`). A whole beat is made as a
product with one, so this rests on the product of two finite beats, which stands for the double
nearest to the product of their numbers (`Beat.stands_mul`).
-/

namespace Downbeat.Beat

open Float.Model (Format UnpackedFloat totalExponent)
open Float.Model.UnpackedFloat

/-! ## Products -/

theorem sign_mul (s t : Sign) : sign (s * t) = sign s * sign t := by
  cases s <;> cases t
  · show (1 : ℚ) = -1 * -1
    norm_num
  · show (-1 : ℚ) = -1 * 1
    norm_num
  · show (-1 : ℚ) = 1 * -1
    norm_num
  · show (1 : ℚ) = 1 * 1
    norm_num

theorem sign_mul_nearest (s : Sign) (x : ℚ) : sign s * nearest x = nearest (sign s * x) := by
  cases s
  · rw [sign, neg_one_mul, neg_one_mul, nearest_neg]
  · rw [sign, one_mul, one_mul]

/-- The mantissa of a product is long enough, or its exponent is below the least one. -/
theorem add_le_targetExponent {m n : ℕ} {e f : ℤ} {s t : Sign} {hm : 0 < m} {hn : 0 < n}
    (hu : IsCanonical (.finite s m e hm)) (hv : IsCanonical (.finite t n f hn)) :
    e + f ≤ Format.binary64.targetExponent (totalExponent (m * n) (e + f)) := by
  obtain ⟨-, he, hm52⟩ := hu
  obtain ⟨-, hf, hn52⟩ := hv
  rw [targetExponent_eq]
  have hlong : 2 ^ 52 ≤ m * n → 52 ≤ (m * n).log2 := fun h =>
    (Nat.le_log2 (Nat.mul_pos hm hn).ne').2 h
  by_cases he' : -1074 < e
  · have := hlong ((hm52 he').trans (Nat.le_mul_of_pos_right m hn))
    omega
  · by_cases hf' : -1074 < f
    · have := hlong ((hn52 hf').trans (Nat.le_mul_of_pos_left n hm))
      omega
    · omega

theorem stands_mul {u v : UnpackedFloat} (hu : IsCanonical u) (hv : IsCanonical v)
    (hu' : u.isFinite = true) (hv' : v.isFinite = true) :
    Stands (mul .binary64 u v) (nearest (number u * number v)) := by
  cases u with
  | infinity s => cases hu'
  | notANumber => cases hu'
  | zero s =>
    have hzero : number (.zero s) = 0 := rfl
    rw [hzero, zero_mul, nearest_zero]
    cases v with
    | infinity t => cases hv'
    | notANumber => cases hv'
    | _ => exact ⟨rfl, trivial, rfl⟩
  | finite s m e hm =>
    cases v with
    | infinity t => cases hv'
    | notANumber => cases hv'
    | zero t =>
      have hzero : number (.zero t) = 0 := rfl
      rw [hzero, mul_zero, nearest_zero]
      exact ⟨rfl, trivial, rfl⟩
    | finite t n f hn =>
      have hproduct : number (.finite s m e hm) * number (.finite t n f hn) =
          sign (s * t) * (((m * n : ℕ) : ℚ) * 2 ^ (e + f)) := by
        rw [number_finite, number_finite, sign_mul, two_zpow_add, Nat.cast_mul]
        ring
      rw [hproduct, ← sign_mul_nearest]
      exact stands_roundWithAccuracy (s * t) (Nat.mul_pos hm hn) (add_le_targetExponent hu hv)

/-! ## Whole numbers -/

/-- A number of steps of a power of two is not rounded while there are few of them. -/
theorem isDouble_div_two_pow {n : ℤ} {j : ℕ} (h : |n| ≤ 2 ^ 53) (hj : j ≤ 1074) :
    IsDouble (n / 2 ^ j) := by
  refine ⟨n, -j, h, by omega, ?_⟩
  rw [zpow_neg, zpow_natCast, div_eq_mul_inv]

theorem abs_div_two_pow_lt {n : ℤ} (j : ℕ) (h : |n| < 2 ^ 53) :
    |(n / 2 ^ j : ℚ)| < 2 ^ (1024 : ℤ) := by
  have hone : (1 : ℚ) ≤ |2 ^ j| := by
    rw [abs_of_pos (by positivity)]
    exact one_le_pow₀ one_le_two
  have hcast : ((|n| : ℤ) : ℚ) < 2 ^ (53 : ℤ) := by exact_mod_cast h
  calc |(n / 2 ^ j : ℚ)| = ((|n| : ℤ) : ℚ) / |2 ^ j| := by rw [abs_div, Int.cast_abs]
    _ ≤ (|n| : ℤ) := div_le_self (by positivity) hone
    _ < 2 ^ (53 : ℤ) := hcast
    _ ≤ 2 ^ (1024 : ℤ) := two_zpow_le.2 (by norm_num)

theorem isDouble_natCast {n : ℕ} (h : n ≤ 2 ^ 53) : IsDouble n :=
  ⟨n, 0, by rw [Nat.abs_cast]; exact_mod_cast h, by norm_num, by simp⟩

theorem natCast_lt {n : ℕ} (h : n < 2 ^ 53) : |(n : ℚ)| < 2 ^ (1024 : ℤ) := by
  have hlt : (n : ℚ) < 2 ^ (53 : ℤ) := by exact_mod_cast h
  rw [Nat.abs_cast]
  exact hlt.trans_le (two_zpow_le.2 (by norm_num))

/-- A word below `2 ^ 53` is not rounded. -/
theorem value_toFloat {w : UInt64} (h : w.toNat < 2 ^ 53) :
    w.toFloat.isFinite = true ∧ value w.toFloat = w.toNat := by
  have hstands := stands_normalize w.toNat 0
  rw [zpow_zero, mul_one, Int.cast_natCast, nearest_of_isDouble (isDouble_natCast h.le)] at hstands
  exact value_of_stands hstands rfl (natCast_lt h)

/-- A whole number below `2 ^ 53` is not rounded. -/
theorem value_ofNat {n : ℕ} (h : n < 2 ^ 53) :
    (Float.ofNat n).isFinite = true ∧ value (Float.ofNat n) = n := by
  have hword : n.toUInt64.toNat = n := by
    rw [Nat.toUInt64, UInt64.toNat_ofNat']
    exact Nat.mod_eq_of_lt (by omega)
  obtain ⟨hfin, hvalue⟩ := value_toFloat (hword.trans_lt h)
  rw [hword] at hvalue
  have hone : Float.ofNat n = n.toUInt64.toFloat * Float.ofBits 0x3FF0000000000000 := by
    show Float.ofScientific n false 0 = _
    rw [Float.ofScientific, dif_pos ⟨h, by decide⟩]
    rfl
  have hone' : (Float.ofBits 0x3FF0000000000000).isFinite = true ∧
      value (Float.ofBits 0x3FF0000000000000) = 1 := by
    decide +kernel
  have hstands := stands_mul (isCanonical_unpack n.toUInt64.toFloat)
    (isCanonical_unpack (Float.ofBits 0x3FF0000000000000)) hfin hone'.1
  have hproduct : number n.toUInt64.toFloat.toModel.unpack *
      number (Float.ofBits 0x3FF0000000000000).toModel.unpack = n := by
    show value _ * value _ = _
    rw [hvalue, hone'.2, mul_one]
  rw [hproduct, nearest_of_isDouble (isDouble_natCast h.le)] at hstands
  rw [hone]
  exact value_of_stands hstands rfl (natCast_lt h)

theorem not_isMinusZero_ofNat {n : ℕ} (h : n < 2 ^ 53) : ¬IsMinusZero (Float.ofNat n) := by
  cases n with
  | zero =>
    have hzero : (Float.ofNat 0).toModel.unpack = .zero .positive := by rfl
    rw [IsMinusZero, hzero]
    intro h
    cases h
  | succ n =>
    refine not_isMinusZero_of_value_ne_zero ?_
    rw [(value_ofNat h).2]
    exact_mod_cast n.succ_ne_zero

/-- Whole numbers are added without rounding. -/
theorem ofNat_add_ofNat {a b : ℕ} (h : a + b < 2 ^ 53) :
    Float.ofNat a + Float.ofNat b = Float.ofNat (a + b) := by
  obtain ⟨hafin, ha⟩ := value_ofNat (by omega : a < 2 ^ 53)
  obtain ⟨hbfin, hb⟩ := value_ofNat (by omega : b < 2 ^ 53)
  obtain ⟨hfin, hab⟩ := value_ofNat h
  have hexact : IsExact (Float.ofNat a) (Float.ofNat b) :=
    isExact_of_value_eq hafin hbfin (by rw [hab, ha, hb, Nat.cast_add])
  refine eq_of_value_eq hexact.isFinite hfin
    (not_isMinusZero_add (.inl (not_isMinusZero_ofNat (by omega)))) (not_isMinusZero_ofNat h) ?_
  rw [hexact.value_eq, ha, hb, hab, Nat.cast_add]

end Downbeat.Beat
