import Downbeat.Proofs.Beat.Whole

/-!
# Products and quotients of beats

The product and the quotient of two finite beats are the doubles nearest to those of their numbers
(`Beat.value_mul`, `Beat.value_div`), as their sum is, unless they are out of range. A quotient of
mantissas is cut off behind enough digits for rounding, and what is cut off is told by two bits
(`Beat.tells_quotient`).
-/

namespace Downbeat.Beat

open Float.Model (Format UnpackedFloat totalExponent)
open Float.Model.UnpackedFloat

/-- The product of finite beats is finite unless it is out of range. -/
theorem value_mul {a b : Beat} (ha : a.isFinite = true) (hb : b.isFinite = true)
    (h : |nearest (value a * value b)| < 2 ^ (1024 : ℤ)) :
    (a * b).isFinite = true ∧ value (a * b) = nearest (value a * value b) :=
  value_of_stands (stands_mul (isCanonical_unpack a) (isCanonical_unpack b) ha hb) rfl h

/-- A product that is a double is not rounded. -/
theorem value_mul_of_eq {a b : Beat} {x : ℚ} (ha : a.isFinite = true) (hb : b.isFinite = true)
    (h : value a * value b = x) (hx : IsDouble x) (hlt : |x| < 2 ^ (1024 : ℤ)) :
    (a * b).isFinite = true ∧ value (a * b) = x := by
  have hexact : nearest (value a * value b) = x := by rw [h, nearest_of_isDouble hx]
  rw [← hexact] at hlt ⊢
  exact value_mul ha hb hlt

/-! ## Quotients -/

theorem sign_div (s t : Sign) : sign (s / t) = sign s / sign t := by
  cases s <;> cases t
  · show (1 : ℚ) = -1 / -1
    norm_num
  · show (-1 : ℚ) = -1 / 1
    norm_num
  · show (-1 : ℚ) = 1 / -1
    norm_num
  · show (1 : ℚ) = 1 / 1
    norm_num

/-- The remainder of a quotient tells how far it is from the next whole number. -/
theorem tells_quotient (m : ℕ) {n : ℕ} (hn : 0 < n) :
    Tells (.ofMantissaAndAccuracy (m / n) (accuracyOfFraction (m % n) n)) (m / n) := by
  have hn' : (0 : ℚ) < n := by exact_mod_cast hn
  have hquotient : (m : ℚ) / n = (m / n : ℕ) + (m % n : ℕ) / n := by
    rw [eq_comm, ← mul_left_inj' hn'.ne', add_mul, div_mul_cancel₀ _ hn'.ne',
      div_mul_cancel₀ _ hn'.ne']
    exact_mod_cast Nat.div_add_mod' m n
  have hlt : ((m % n : ℕ) : ℚ) / n < 1 := by
    rw [div_lt_one hn']
    exact_mod_cast Nat.mod_lt m hn
  rw [hquotient, accuracyOfFraction]
  split_ifs with hzero
  · simp [Tells, ExtendedMantissa.ofMantissaAndAccuracy, hzero]
  · have hpos : (0 : ℚ) < (m % n : ℕ) / n := by
      have : (0 : ℚ) < (m % n : ℕ) := by exact_mod_cast Nat.pos_of_ne_zero hzero
      positivity
    rcases lt_trichotomy (2 * (m % n)) n with hhalf | hhalf | hhalf
    · have hhalf' : ((m % n : ℕ) : ℚ) / n < 1 / 2 := by
        rw [div_lt_iff₀ hn', ← sub_pos]
        have : (2 * (m % n : ℕ) : ℚ) < n := by exact_mod_cast hhalf
        linarith
      rw [compare_lt_iff_lt.2 hhalf]
      exact ⟨lt_add_of_pos_right _ hpos, (add_lt_add_iff_left _).2 hhalf'⟩
    · have hhalf' : ((m % n : ℕ) : ℚ) / n = 1 / 2 := by
        rw [div_eq_iff hn'.ne']
        have : (2 * (m % n : ℕ) : ℚ) = n := by exact_mod_cast hhalf
        linarith
      rw [compare_eq_iff_eq.2 hhalf]
      exact congrArg _ hhalf'
    · have hhalf' : 1 / 2 < ((m % n : ℕ) : ℚ) / n := by
        rw [lt_div_iff₀ hn', ← sub_pos]
        have : (n : ℚ) < 2 * (m % n : ℕ) := by exact_mod_cast hhalf
        linarith
      rw [compare_gt_iff_gt.2 hhalf]
      exact ⟨(add_lt_add_iff_left _).2 hhalf', (add_lt_add_iff_left _).2 hlt⟩

/-- A number below the least double is on the grid of the least double. -/
theorem grid_of_abs_lt {x : ℚ} {e : ℤ} (hx : x ≠ 0) (he : e ≤ -1074) (h : |x| < 2 ^ e) :
    grid x = -1074 := by
  have hlog : Int.log 2 |x| < e :=
    (Int.lt_zpow_iff_log_lt Nat.one_lt_two (abs_pos.2 hx)).1 (by exact_mod_cast h)
  rw [grid]
  omega

/-- The exponent to which the mantissa of a quotient is brought is that of the grid. -/
theorem grid_quotient {m n : ℕ} (hm : 0 < m) (hn : 0 < n) {t : ℤ}
    (ht : t ≤ -1074 ∨ 2 ^ 52 ≤ m / n) :
    t ≤ Format.binary64.targetExponent (totalExponent (m / n) t) ∧
      grid (m / n * 2 ^ t) = Format.binary64.targetExponent (totalExponent (m / n) t) := by
  have hbounds := (tells_quotient m hn).bounds
  rw [mantissa_ofMantissaAndAccuracy] at hbounds
  rcases Nat.eq_zero_or_pos (m / n) with hzero | hpos
  · have ht : t ≤ -1074 := ht.resolve_right (by omega)
    rw [hzero] at hbounds ⊢
    have hpos : (0 : ℚ) < m / n * 2 ^ t := by positivity
    have hlt : |(m : ℚ) / n * 2 ^ t| < 2 ^ t := by
      rw [abs_of_pos hpos]
      exact mul_lt_of_lt_one_left (two_zpow_pos t) (by simpa using hbounds.2)
    rw [grid_of_abs_lt hpos.ne' ht hlt, targetExponent_eq, Nat.log2_zero]
    omega
  · refine ⟨?_, grid_eq_targetExponent hpos hbounds.1 hbounds.2 t⟩
    rw [targetExponent_eq]
    rcases ht with ht | hlong
    · omega
    · have := (Nat.le_log2 hpos.ne').2 hlong
      omega

/-- The quotient of two mantissas has digits enough once the first one is shifted so far. -/
theorem le_quotient {m n k : ℕ} (hm : 0 < m) (hn : 0 < n) (h : n.log2 + 53 ≤ m.log2 + k) :
    2 ^ 52 ≤ (m <<< k) / n := by
  rw [Nat.le_div_iff_mul_le hn, Nat.shiftLeft_eq]
  calc 2 ^ 52 * n ≤ 2 ^ 52 * 2 ^ (n.log2 + 1) := Nat.mul_le_mul_left _ Nat.lt_log2_self.le
    _ = 2 ^ (n.log2 + 53) := by rw [← pow_add]; congr 1; omega
    _ ≤ 2 ^ (m.log2 + k) := Nat.pow_le_pow_right (by decide) h
    _ = 2 ^ m.log2 * 2 ^ k := pow_add ..
    _ ≤ m * 2 ^ k := Nat.mul_le_mul_right _ (Nat.log2_self_le hm.ne')

theorem stands_div {u v : UnpackedFloat} (hu : u.isFinite = true) (hv : v.isFinite = true)
    (hne : number v ≠ 0) : Stands (div .binary64 u v) (nearest (number u / number v)) := by
  cases v with
  | infinity t => cases hv
  | notANumber => cases hv
  | zero t => exact absurd rfl hne
  | finite t n f hn =>
    cases u with
    | infinity s => cases hu
    | notANumber => cases hu
    | zero s =>
      have hzero : number (.zero s) = 0 := rfl
      rw [hzero, zero_div, nearest_zero]
      exact ⟨rfl, trivial, rfl⟩
    | finite s m e hm =>
      set target := min (e - f)
        (Format.binary64.targetExponent (totalExponent m e - totalExponent n f)) with htarget
      set k := (e - f - target).toNat with hk
      have hexponent : e - f = target + k := by omega
      have hquotient : number (.finite s m e hm) / number (.finite t n f hn) =
          sign (s / t) * (((m <<< k : ℕ) : ℚ) / n * 2 ^ target) := by
        rw [number_finite, number_finite, mul_div_mul_comm, mul_div_mul_comm, ← sign_div,
          ← zpow_sub₀ two_ne_zero, hexponent, two_zpow_add, zpow_natCast, Nat.shiftLeft_eq]
        push_cast
        ring
      have hlong : target ≤ -1074 ∨ 2 ^ 52 ≤ (m <<< k) / n := by
        by_cases hsmall : target ≤ -1074
        · exact .inl hsmall
        · refine .inr (le_quotient hm hn ?_)
          simp only [Format.targetExponent, totalExponent, Format.mantissaBits,
            Format.minExponent] at htarget
          omega
      have hpos : 0 < m <<< k := by
        rw [Nat.shiftLeft_eq]
        positivity
      obtain ⟨hle, hgrid⟩ := grid_quotient hpos hn hlong
      rw [hquotient, ← sign_mul_nearest]
      exact stands_of_tells (s / t) (tells_quotient (m <<< k) hn) hle hgrid

/-- The quotient of finite beats is finite unless it is out of range. -/
theorem value_div {a b : Beat} (ha : a.isFinite = true) (hb : b.isFinite = true)
    (hne : value b ≠ 0) (h : |nearest (value a / value b)| < 2 ^ (1024 : ℤ)) :
    (a / b).isFinite = true ∧ value (a / b) = nearest (value a / value b) :=
  value_of_stands (stands_div ha hb hne) rfl h

/-- A quotient that is a double is not rounded. -/
theorem value_div_of_eq {a b : Beat} {x : ℚ} (ha : a.isFinite = true) (hb : b.isFinite = true)
    (hne : value b ≠ 0) (h : value a / value b = x) (hx : IsDouble x)
    (hlt : |x| < 2 ^ (1024 : ℤ)) : (a / b).isFinite = true ∧ value (a / b) = x := by
  have hexact : nearest (value a / value b) = x := by rw [h, nearest_of_isDouble hx]
  rw [← hexact] at hlt ⊢
  exact value_div ha hb hne hlt

end Downbeat.Beat
