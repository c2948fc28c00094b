import Mathlib.Algebra.Order.Field.Power
import Mathlib.Algebra.Order.Floor.Ring
import Mathlib.Data.Int.Log
import Mathlib.Data.Rat.Floor
import Mathlib.Tactic.Linarith
import Mathlib.Tactic.NormNum
import Mathlib.Tactic.Positivity
import Mathlib.Tactic.Ring

/-!
# The nearest double

A number between two doubles is rounded to the nearer one, and to the even one if both are as
near (`Beat.nearest`). The doubles around a number are the multiples of a power of two whose
exponent grows with the number (`Beat.grid`), and is bounded below.

Rounding leaves doubles as they are (`Beat.nearest_of_isDouble`) and keeps the order
(`Beat.nearest_mono`), so it never passes a double. Here the exponents have no upper bound.
-/

namespace Downbeat.Beat

/-! ## Whole numbers -/

/-- The nearest whole number, and the even one if two are as near. -/
def roundEven (q : ℚ) : ℤ :=
  if q - ⌊q⌋ < 1 / 2 then ⌊q⌋
  else if 1 / 2 < q - ⌊q⌋ then ⌊q⌋ + 1
  else ⌊q⌋ + ⌊q⌋ % 2

theorem roundEven_bounds (q : ℚ) : ⌊q⌋ ≤ roundEven q ∧ roundEven q ≤ ⌊q⌋ + 1 := by
  unfold roundEven
  split_ifs <;> omega

theorem roundEven_intCast (n : ℤ) : roundEven n = n := by
  unfold roundEven
  rw [Int.floor_intCast, sub_self, if_pos (by norm_num)]

theorem roundEven_mono {p q : ℚ} (h : p ≤ q) : roundEven p ≤ roundEven q := by
  have hfloor : ⌊p⌋ ≤ ⌊q⌋ := Int.floor_le_floor h
  rcases hfloor.lt_or_eq with hlt | heq
  · have hp := (roundEven_bounds p).2
    have hq := (roundEven_bounds q).1
    omega
  · have hfract : p - ⌊p⌋ ≤ q - ⌊q⌋ := by
      rw [heq]
      linarith
    unfold roundEven
    rw [heq] at hfract ⊢
    split_ifs <;> first | omega | linarith

theorem le_roundEven {n : ℤ} {q : ℚ} (h : (n : ℚ) ≤ q) : n ≤ roundEven q :=
  roundEven_intCast n ▸ roundEven_mono h

theorem roundEven_le {n : ℤ} {q : ℚ} (h : q ≤ (n : ℚ)) : roundEven q ≤ n :=
  roundEven_intCast n ▸ roundEven_mono h

theorem roundEven_neg (q : ℚ) : roundEven (-q) = -roundEven q := by
  by_cases hq : ((⌊q⌋ : ℤ) : ℚ) = q
  · rw [← hq, ← Int.cast_neg, roundEven_intCast, roundEven_intCast]
  · have hlt : ((⌊q⌋ : ℤ) : ℚ) < q := lt_of_le_of_ne (Int.floor_le q) hq
    have hfloor : ⌊-q⌋ = -⌊q⌋ - 1 := by
      rw [Int.floor_eq_iff]
      have := Int.lt_floor_add_one q
      push_cast
      constructor <;> linarith
    unfold roundEven
    rw [hfloor]
    push_cast
    split_ifs <;> first | omega | linarith

/-- Rounding moves a number by at most one half. -/
theorem abs_roundEven_sub_le (q : ℚ) : |(roundEven q : ℚ) - q| ≤ 1 / 2 := by
  have hlo := Int.floor_le q
  have hhi := Int.lt_floor_add_one q
  rw [abs_le]
  unfold roundEven
  split_ifs
  · constructor <;> linarith
  · push_cast
    constructor <;> linarith
  · have hmod : ((⌊q⌋ % 2 : ℤ) : ℚ) = 0 ∨ ((⌊q⌋ % 2 : ℤ) : ℚ) = 1 := by
      rcases Int.emod_two_eq_zero_or_one ⌊q⌋ with h | h
      · exact .inl (by rw [h, Int.cast_zero])
      · exact .inr (by rw [h, Int.cast_one])
    push_cast
    rcases hmod with h | h <;> rw [h] <;> constructor <;> linarith

/-- A number within one half of a whole number is rounded to it; if the whole number is odd, the
ends are not. -/
theorem roundEven_eq {n : ℤ} {q : ℚ} (h : |q - n| ≤ 1 / 2) (hodd : n % 2 = 1 → |q - n| < 1 / 2) :
    roundEven q = n := by
  obtain ⟨hlow, hhigh⟩ := abs_le.1 h
  unfold roundEven
  rcases le_or_gt (n : ℚ) q with hle | hgt
  · have hfloor : ⌊q⌋ = n := by
      rw [Int.floor_eq_iff]
      constructor <;> linarith
    rw [hfloor]
    split_ifs with h₁ h₂
    · rfl
    · linarith
    · rcases Int.emod_two_eq_zero_or_one n with heven | hone
      · omega
      · exact absurd (abs_lt.1 (hodd hone)).2 h₁
  · have hfloor : ⌊q⌋ = n - 1 := by
      rw [Int.floor_eq_iff]
      push_cast
      constructor <;> linarith
    rw [hfloor]
    push_cast
    split_ifs with h₁ h₂
    · linarith
    · omega
    · rcases Int.emod_two_eq_zero_or_one n with heven | hone
      · omega
      · exact absurd (by linarith [(abs_lt.1 (hodd hone)).1]) h₂

/-! ## Doubles -/

theorem two_zpow_pos (e : ℤ) : (0 : ℚ) < 2 ^ e := by positivity

theorem two_zpow_add (d e : ℤ) : (2 : ℚ) ^ (d + e) = 2 ^ d * 2 ^ e :=
  zpow_add₀ two_ne_zero d e

theorem two_zpow_le {d e : ℤ} : (2 : ℚ) ^ d ≤ 2 ^ e ↔ d ≤ e :=
  zpow_le_zpow_iff_right₀ one_lt_two

/-- The exponent of the distance between the doubles around a number. -/
def grid (x : ℚ) : ℤ := max (-1074) (Int.log 2 |x| - 52)

/-- The double nearest to a number. -/
def nearest (x : ℚ) : ℚ := roundEven (x / 2 ^ grid x) * 2 ^ grid x

/-- The number is a double, of any size. -/
def IsDouble (x : ℚ) : Prop := ∃ m e : ℤ, |m| ≤ 2 ^ 53 ∧ -1074 ≤ e ∧ x = m * 2 ^ e

theorem grid_neg (x : ℚ) : grid (-x) = grid x := by rw [grid, abs_neg, grid]

theorem nearest_neg (x : ℚ) : nearest (-x) = -nearest x := by
  rw [nearest, grid_neg, neg_div, roundEven_neg, Int.cast_neg, neg_mul, nearest]

theorem neg_1074_le_grid (x : ℚ) : -1074 ≤ grid x := le_max_left _ _

theorem grid_mono {x y : ℚ} (hx : 0 < |x|) (h : |x| ≤ |y|) : grid x ≤ grid y :=
  max_le_max_left _ (Int.sub_le_sub_right (Int.log_mono_right hx h) 52)

theorem abs_lt_of_grid (x : ℚ) : |x| < 2 ^ (53 + grid x) := by
  have hlog : Int.log 2 |x| + 1 ≤ 53 + grid x := by
    have : Int.log 2 |x| - 52 ≤ grid x := le_max_right _ _
    omega
  have hlt : |x| < ((2 : ℕ) : ℚ) ^ (Int.log 2 |x| + 1) :=
    Int.lt_zpow_succ_log_self Nat.one_lt_two |x|
  rw [Nat.cast_ofNat] at hlt
  exact hlt.trans_le (two_zpow_le.2 hlog)

/-- Above the least exponent, a number has all the digits of a double. -/
theorem le_abs_of_grid {x : ℚ} (hx : x ≠ 0) (h : -1074 < grid x) : 2 ^ (52 + grid x) ≤ |x| := by
  have hgrid : grid x = Int.log 2 |x| - 52 := (max_choice _ _).resolve_left h.ne'
  have hle : ((2 : ℕ) : ℚ) ^ Int.log 2 |x| ≤ |x| :=
    Int.zpow_log_le_self Nat.one_lt_two (abs_pos.2 hx)
  rw [Nat.cast_ofNat] at hle
  rwa [hgrid, add_sub_cancel]

/-- A number with all the digits of a double is on the grid of its last digit. -/
theorem grid_mul_zpow {q : ℚ} {e : ℤ} (hpos : 0 < q) (hlt : q < 2 ^ 53) (he : -1074 ≤ e)
    (hfull : -1074 < e → 2 ^ 52 ≤ q) : grid (q * 2 ^ e) = e := by
  have hpos' : 0 < q * 2 ^ e := mul_pos hpos (two_zpow_pos e)
  have hhigh : Int.log 2 (q * 2 ^ e) < 53 + e := by
    refine (Int.lt_zpow_iff_log_lt Nat.one_lt_two hpos').1 ?_
    rw [Nat.cast_ofNat, two_zpow_add]
    exact mul_lt_mul_of_pos_right (by exact_mod_cast hlt) (two_zpow_pos e)
  have hlow : -1074 < e → 52 + e ≤ Int.log 2 (q * 2 ^ e) := by
    intro hnormal
    refine (Int.zpow_le_iff_le_log Nat.one_lt_two hpos').1 ?_
    rw [Nat.cast_ofNat, two_zpow_add]
    exact mul_le_mul_of_nonneg_right (by exact_mod_cast hfull hnormal) (two_zpow_pos e).le
  rw [grid, abs_of_pos hpos']
  omega

theorem nearest_of_grid_eq {q : ℚ} {e : ℤ} (h : grid (q * 2 ^ e) = e) :
    nearest (q * 2 ^ e) = roundEven q * 2 ^ e := by
  rw [nearest, h, mul_div_cancel_right₀ _ (two_zpow_pos e).ne']

theorem nearest_zero : nearest 0 = 0 := by
  have h := roundEven_intCast 0
  rw [Int.cast_zero] at h
  rw [nearest, zero_div, h, Int.cast_zero, zero_mul]

/-- A number that is a multiple of the distance between the doubles around it is a double. -/
theorem nearest_of_eq_mul {x : ℚ} (n : ℤ) (h : x = n * 2 ^ grid x) : nearest x = x := by
  have hdiv : x / 2 ^ grid x = n := by
    rw [div_eq_iff (two_zpow_pos _).ne']
    exact h
  rw [nearest, hdiv, roundEven_intCast, ← h]

theorem nearest_of_abs_eq {x : ℚ} (h : |x| = 2 ^ (52 + grid x)) : nearest x = x := by
  rw [two_zpow_add] at h
  rcases abs_choice x with habs | habs
  · refine nearest_of_eq_mul (2 ^ 52) ?_
    calc x = |x| := habs.symm
      _ = 2 ^ (52 : ℤ) * 2 ^ grid x := h
      _ = ((2 ^ 52 : ℤ) : ℚ) * 2 ^ grid x := by norm_cast
  · refine nearest_of_eq_mul (-2 ^ 52) ?_
    calc x = -|x| := by rw [habs, neg_neg]
      _ = -(2 ^ (52 : ℤ) * 2 ^ grid x) := by rw [h]
      _ = ((-2 ^ 52 : ℤ) : ℚ) * 2 ^ grid x := by
        push_cast
        rw [neg_mul]

/-- Rounding leaves doubles as they are. -/
theorem nearest_of_isDouble {x : ℚ} (h : IsDouble x) : nearest x = x := by
  obtain ⟨m, e, hm, he, rfl⟩ := h
  set x : ℚ := m * 2 ^ e with hx
  rcases le_or_gt (grid x) e with hle | hlt
  · refine nearest_of_eq_mul (m * 2 ^ (e - grid x).toNat) ?_
    have hexp : (2 : ℚ) ^ (e - grid x).toNat * 2 ^ grid x = 2 ^ e := by
      rw [← zpow_natCast, ← two_zpow_add]
      congr 1
      omega
    push_cast
    rw [mul_assoc, hexp]
  · -- the mantissa is too short for the grid, unless it is the next power of two
    by_cases hzero : x = 0
    · rw [hzero, nearest_zero]
    have hm' : |(m : ℚ)| ≤ 2 ^ (53 : ℤ) := by exact_mod_cast hm
    have hhigh : |x| ≤ 2 ^ (53 + e) := by
      rw [hx, abs_mul, abs_of_pos (two_zpow_pos e), two_zpow_add]
      exact mul_le_mul_of_nonneg_right hm' (two_zpow_pos e).le
    have hlow := le_abs_of_grid hzero (by omega)
    exact nearest_of_abs_eq ((hhigh.trans (two_zpow_le.2 (by omega))).antisymm hlow)

theorem isDouble_two_zpow {e : ℤ} (h : -1074 ≤ e) : IsDouble (2 ^ e) :=
  ⟨1, e, by norm_num, h, by rw [Int.cast_one, one_mul]⟩

/-! ## Order -/

theorem nearest_nonneg {x : ℚ} (h : 0 ≤ x) : 0 ≤ nearest x := by
  have hround : 0 ≤ roundEven (x / 2 ^ grid x) :=
    le_roundEven (by simpa using div_nonneg h (two_zpow_pos _).le)
  exact mul_nonneg (by exact_mod_cast hround) (two_zpow_pos _).le

theorem nearest_mono_of_pos {x y : ℚ} (hx : 0 < x) (h : x ≤ y) : nearest x ≤ nearest y := by
  have hy : 0 < y := hx.trans_le h
  have hgrid : grid x ≤ grid y := by
    refine grid_mono (abs_pos.2 hx.ne') ?_
    rwa [abs_of_pos hx, abs_of_pos hy]
  rcases hgrid.lt_or_eq with hlt | heq
  · -- a power of two is between the grids
    have hlow : nearest x ≤ 2 ^ (53 + grid x) := by
      have hle : x / 2 ^ grid x ≤ ((2 ^ 53 : ℤ) : ℚ) := by
        rw [div_le_iff₀ (two_zpow_pos _)]
        have := (abs_lt_of_grid x).le
        rw [abs_of_pos hx, two_zpow_add] at this
        exact_mod_cast this
      have hround : ((roundEven (x / 2 ^ grid x) : ℤ) : ℚ) ≤ 2 ^ (53 : ℤ) := by
        exact_mod_cast roundEven_le hle
      rw [nearest, two_zpow_add]
      exact mul_le_mul_of_nonneg_right hround (two_zpow_pos _).le
    have hhigh : 2 ^ (52 + grid y) ≤ nearest y := by
      have hmin := neg_1074_le_grid x
      have hle : ((2 ^ 52 : ℤ) : ℚ) ≤ y / 2 ^ grid y := by
        rw [le_div_iff₀ (two_zpow_pos _)]
        have := le_abs_of_grid hy.ne' (by omega)
        rw [abs_of_pos hy, two_zpow_add] at this
        exact_mod_cast this
      have hround : (2 : ℚ) ^ (52 : ℤ) ≤ ((roundEven (y / 2 ^ grid y) : ℤ) : ℚ) := by
        exact_mod_cast le_roundEven hle
      rw [nearest, two_zpow_add]
      exact mul_le_mul_of_nonneg_right hround (two_zpow_pos _).le
    exact (hlow.trans (two_zpow_le.2 (by omega))).trans hhigh
  · rw [nearest, nearest, heq]
    have hle : x / 2 ^ grid y ≤ y / 2 ^ grid y := div_le_div_of_nonneg_right h (two_zpow_pos _).le
    exact mul_le_mul_of_nonneg_right (by exact_mod_cast roundEven_mono hle) (two_zpow_pos _).le

/-- Rounding keeps the order. -/
theorem nearest_mono {x y : ℚ} (h : x ≤ y) : nearest x ≤ nearest y := by
  rcases lt_or_ge 0 x with hx | hx
  · exact nearest_mono_of_pos hx h
  · rcases lt_or_ge y 0 with hy | hy
    · have hneg := nearest_mono_of_pos (neg_pos.2 hy) (neg_le_neg h)
      rw [nearest_neg, nearest_neg] at hneg
      exact neg_le_neg_iff.1 hneg
    · have hxneg : nearest x ≤ 0 := by
        have := nearest_nonneg (neg_nonneg.2 hx)
        rw [nearest_neg] at this
        exact neg_nonneg.1 this
      exact hxneg.trans (nearest_nonneg hy)

/-- Rounding does not pass a double. -/
theorem le_nearest {x y : ℚ} (hx : IsDouble x) (h : x ≤ y) : x ≤ nearest y :=
  nearest_of_isDouble hx ▸ nearest_mono h

/-- Rounding moves a number by at most half the distance between the doubles around it. -/
theorem abs_nearest_sub_le (x : ℚ) : |nearest x - x| ≤ 2 ^ grid x / 2 := by
  have hpos := two_zpow_pos (grid x)
  have heq : nearest x - x = (roundEven (x / 2 ^ grid x) - x / 2 ^ grid x) * 2 ^ grid x := by
    rw [sub_mul, div_mul_cancel₀ _ hpos.ne', nearest]
  rw [heq, abs_mul, abs_of_pos hpos]
  calc |(roundEven (x / 2 ^ grid x) : ℚ) - x / 2 ^ grid x| * 2 ^ grid x
      ≤ 1 / 2 * 2 ^ grid x := mul_le_mul_of_nonneg_right (abs_roundEven_sub_le _) hpos.le
    _ = 2 ^ grid x / 2 := by ring

end Downbeat.Beat
