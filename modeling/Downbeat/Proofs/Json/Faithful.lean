import Downbeat.Proofs.Beat.Quotient
import Downbeat.Proofs.Json.Double

/-!
# Doubles that are read as they were written

The digits of a number are gathered as a whole number, which is multiplied or divided by a power of
ten. While both of these are doubles themselves, the only rounding is that to the double nearest to
the number (`Number.scale_of_short`). A double whose text is as short as that is read as it was
written (`readBack_of_isShort`), as it is the double nearest to its fewest digits.
-/

namespace Downbeat.Json

open Decimal

/-! ## Numbers of few digits -/

namespace Numeral

/-- The number that the digits of an exponent stand for. -/
def exponentValue : Option (Bool × List Char) → ℤ
  | none => 0
  | some (minus, ds) =>
    if minus then -(Nat.ofDigitChars 10 ds 0 : ℕ) else (Nat.ofDigitChars 10 ds 0 : ℕ)

/-- The number that the digits stand for, without the point. -/
def digits (u : Numeral) : ℕ := Nat.ofDigitChars 10 (u.whole ++ u.fraction) 0

/-- The power of ten of the last digit. -/
def power (u : Numeral) : ℤ := exponentValue u.exponent - u.fraction.length

end Numeral

namespace Number

theorem gatherExponent_eq {n : ℕ} {ds : List Char}
    (h : Nat.ofDigitChars 10 ds n < exponentBound) :
    gatherExponent n ds = some (Nat.ofDigitChars 10 ds n) := by
  induction ds generalizing n with
  | nil => rfl
  | cons c ds ih =>
    rw [ofDigitChars_cons] at h
    have hfits : n * 10 + digit c < exponentBound := Nat.lt_of_le_of_lt (le_ofDigitChars ds _) h
    simp only [gatherExponent, if_pos hfits, ih h, ofDigitChars_cons]

theorem raised_eq {negative : Bool} {m : ℕ} {e : ℤ} {exponent : Option (Bool × List Char)}
    (h : ∀ x ∈ exponent, Nat.ofDigitChars 10 x.2 0 < exponentBound) :
    raised negative m e exponent = assembled negative m (e + Numeral.exponentValue exponent) := by
  cases exponent with
  | none => rw [raised, Numeral.exponentValue, add_zero]
  | some x =>
    obtain ⟨minus, ds⟩ := x
    rw [raised, gatherExponent_eq (h _ rfl)]
    cases minus <;> rfl

/-- The powers of ten that are doubles. -/
theorem tenTo_exact : ∀ k : Fin 23,
    (tenTo k).isFinite = true ∧ Beat.value (tenTo k) = 10 ^ (k : ℕ) := by
  decide +kernel

theorem isInf_of_isFinite {x : Float} (hx : x.isFinite = true) : x.isInf = false := by
  have h := isNaN_or_isInf x
  rw [hx, Bool.not_true, Bool.or_eq_false_iff] at h
  exact h.2

/-- A number of this size is rounded to a double in range. -/
theorem abs_nearest_lt {x : ℚ} (hx : 0 ≤ x) (h : x ≤ 2 ^ (127 : ℤ)) :
    |Beat.nearest x| < 2 ^ (1024 : ℤ) := by
  have hle := Beat.nearest_mono h
  rw [Beat.nearest_of_isDouble (Beat.isDouble_two_zpow (by norm_num))] at hle
  rw [abs_of_nonneg (Beat.nearest_nonneg hx)]
  exact hle.trans_lt (zpow_lt_zpow_right₀ one_lt_two (by norm_num))

/-- Digits and a power of ten that are doubles are rounded once. -/
theorem scale_of_short {m : ℕ} {e : ℤ} (hm : m < 2 ^ 53) (he : e.natAbs ≤ 22) :
    ∃ x, scale (Float.ofNat m) 4 e = some x ∧ x.isFinite = true ∧
      Beat.value x = Beat.nearest (m * 10 ^ e) := by
  obtain ⟨hmfin, hmvalue⟩ := Beat.value_ofNat hm
  obtain ⟨htfin, htvalue⟩ := tenTo_exact ⟨e.natAbs, by omega⟩
  have hm' : (m : ℚ) ≤ 2 ^ 53 := by exact_mod_cast hm.le
  rw [scale, if_pos (by omega)]
  by_cases hsign : 0 ≤ e
  · have hpower : (10 : ℚ) ^ e.natAbs = 10 ^ e := by
      rw [← zpow_natCast]
      congr 1
      omega
    have hbound : (m : ℚ) * 10 ^ e.natAbs ≤ 2 ^ (127 : ℤ) := by
      calc (m : ℚ) * 10 ^ e.natAbs ≤ 2 ^ 53 * 10 ^ 22 :=
            mul_le_mul hm' (pow_le_pow_right₀ (by norm_num) he) (by positivity) (by positivity)
        _ ≤ 2 ^ (127 : ℤ) := by norm_num
    obtain ⟨hfin, hvalue⟩ := Beat.value_mul hmfin htfin (by
      rw [hmvalue, htvalue]
      exact abs_nearest_lt (by positivity) hbound)
    refine ⟨_, ?_, hfin, ?_⟩
    · simp only [if_pos hsign, isInf_of_isFinite hfin, Bool.false_eq_true, if_false]
    · rw [hvalue, hmvalue, htvalue, hpower]
  · have hpower : (m : ℚ) / 10 ^ e.natAbs = m * 10 ^ e := by
      rw [div_eq_mul_inv, ← zpow_natCast, ← zpow_neg]
      congr 2
      omega
    have hbound : (m : ℚ) / 10 ^ e.natAbs ≤ 2 ^ (127 : ℤ) := by
      calc (m : ℚ) / 10 ^ e.natAbs ≤ m :=
            div_le_self (by positivity) (one_le_pow₀ (by norm_num))
        _ ≤ 2 ^ 53 := hm'
        _ ≤ 2 ^ (127 : ℤ) := by norm_num
    obtain ⟨hfin, hvalue⟩ := Beat.value_div hmfin htfin (by rw [htvalue]; positivity) (by
      rw [hmvalue, htvalue]
      exact abs_nearest_lt (by positivity) hbound)
    refine ⟨_, if_neg hsign, hfin, ?_⟩
    rw [hvalue, hmvalue, htvalue, hpower]

end Number

theorem Numeral.result_eq {u : Numeral} {negative : Bool} (hdigits : u.digits < Number.bound)
    (hexponent : ∀ x ∈ u.exponent, Nat.ofDigitChars 10 x.2 0 < Number.exponentBound) :
    u.result negative = Number.assembled negative u.digits u.power := by
  rw [digits, Nat.ofDigitChars_append] at hdigits
  have hwhole := (Number.le_ofDigitChars u.fraction _).trans_lt hdigits
  rw [result, Number.gather_eq hwhole, digits, power, Nat.ofDigitChars_append]
  simp only [Number.gather_eq hdigits, Number.raised_eq hexponent, List.length_nil]
  congr 1
  omega

/-! ## Numerals of decimals -/

theorem ofDigitChars_digitsOf (n : ℕ) : Nat.ofDigitChars 10 (digitsOf n) 0 = n :=
  Nat.ofDigitChars_ten_toDigits

/-- The digits of a numeral are those of its decimal; those of a whole number come with its zeros,
and with one behind the point. -/
theorem numeral_digits_power (s : Scaled) :
    ((numeral s).digits = s.digits ∧ (numeral s).power = s.exponent) ∨
      (0 ≤ s.exponent ∧ (numeral s).digits = 10 ^ (s.exponent.toNat + 1) * s.digits ∧
        (numeral s).power = -1 ∧ (numeral s).exponent = none) := by
  have hvalue := ofDigitChars_digitsOf s.digits
  have hlength := length_digitsOf_pos s.digits
  simp only [numeral]
  generalize digitsOf s.digits = ds at hvalue hlength
  cases json.isPositional (s.exponent + ds.length - 1) with
  | true =>
    rw [if_pos rfl]
    by_cases hpoint : s.exponent + ds.length ≤ 0
    · left
      rw [if_pos hpoint]
      constructor
      · simp [Numeral.digits, Nat.ofDigitChars_append, Nat.ofDigitChars_cons, hvalue]
      · simp only [Numeral.power, Numeral.exponentValue, List.length_append, List.length_replicate]
        omega
    · rw [if_neg hpoint]
      by_cases hexponent : 0 ≤ s.exponent
      · right
        rw [if_pos hexponent]
        refine ⟨hexponent, ?_, rfl, rfl⟩
        simp only [Numeral.digits, Nat.ofDigitChars_append, hvalue, Nat.sub_self, add_zero,
          Nat.ofDigitChars_replicate_zero, Nat.ofDigitChars_cons, Nat.ofDigitChars_nil]
        ring
      · left
        rw [if_neg hexponent]
        refine ⟨by simp only [Numeral.digits, List.take_append_drop, hvalue], ?_⟩
        simp only [Numeral.power, Numeral.exponentValue, List.length_drop]
        omega
  | false =>
    left
    rw [if_neg Bool.false_ne_true]
    refine ⟨by simp only [Numeral.digits, List.take_append_drop, hvalue], ?_⟩
    simp only [Numeral.power, Numeral.exponentValue, List.length_drop, ofDigitChars_digitsOf,
      decide_eq_true_eq]
    split_ifs <;> omega

/-- The numeral of a decimal stands for it. -/
theorem numeral_value (s : Scaled) :
    ((numeral s).digits : ℚ) * 10 ^ (numeral s).power = s.digits * 10 ^ s.exponent := by
  rcases numeral_digits_power s with ⟨hdigits, hpower⟩ | ⟨hexponent, hdigits, hpower, -⟩
  · rw [hdigits, hpower]
  · have hzeros : ((10 ^ (s.exponent.toNat + 1) : ℕ) : ℚ) * 10 ^ (-1 : ℤ) = 10 ^ s.exponent := by
      rw [Nat.cast_pow, Nat.cast_ofNat, ← zpow_natCast, ← zpow_add₀ (by norm_num)]
      congr 1
      omega
    rw [hdigits, hpower, ← hzeros, Nat.cast_mul]
    ring

/-- A numeral of few digits and a small power of ten has a small exponent. -/
theorem exponent_lt_of_numeral {s : Scaled} (hdigits : (numeral s).digits < 2 ^ 53)
    (hpower : (numeral s).power.natAbs ≤ 22) :
    ∀ x ∈ (numeral s).exponent, Nat.ofDigitChars 10 x.2 0 < Number.exponentBound := by
  intro x hx
  rcases numeral_digits_power s with ⟨hsame, hsame'⟩ | ⟨-, -, -, hnone⟩
  · rw [hsame] at hdigits
    rw [hsame'] at hpower
    have hlength : (digitsOf s.digits).length ≤ 16 :=
      (Nat.length_toDigits_le_iff (by decide) (by decide)).2 (by omega)
    simp only [numeral] at hx
    split_ifs at hx
    · cases hx
    · cases hx
    · cases hx
    · obtain rfl := Option.some.inj hx
      rw [ofDigitChars_digitsOf, Number.exponentBound]
      show _ < 2 ^ 31
      omega
  · rw [hnone] at hx
    cases hx

/-! ## Doubles -/

/-- The double is finite, the digits of its text make a number below `2 ^ 53`, and the last of them
is within 22 places of the point. -/
def IsShort (x : Float) : Prop :=
  x.isFinite = true ∧ (doubleNumeral x).digits < 2 ^ 53 ∧ (doubleNumeral x).power.natAbs ≤ 22

instance (x : Float) : Decidable (IsShort x) :=
  inferInstanceAs (Decidable (_ ∧ _ ∧ _))

theorem doubleNumeral_of_zero {x : Float} {s : Float.Model.UnpackedFloat.Sign}
    (h : x.toModel.unpack = .zero s) : doubleNumeral x = ⟨['0'], ['0'], none⟩ :=
  if_pos (Magnitude.mantissa_of_unpack_zero h)

/-- A zero is read as it was written, with its sign. -/
theorem readBack_of_zero {x : Float} {s : Float.Model.UnpackedFloat.Sign}
    (h : x.toModel.unpack = .zero s) : readBack x = .ok x := by
  have hfin : x.isFinite = true := by
    show x.toModel.unpack.isFinite = true
    rw [h]
    rfl
  rw [readBack_of_gives (gives_float_of_isFinite hfin), doubleNumeral_of_zero h]
  have hsign := isNegative_of_unpack_zero h
  cases s with
  | negative =>
    obtain rfl : x = -0.0 := Beat.eq_of_unpack_eq (h.trans (by rfl))
    rw [hsign.2 rfl]
    rfl
  | positive =>
    obtain rfl : x = 0.0 := Beat.eq_of_unpack_eq (h.trans (by rfl))
    rw [Bool.eq_false_iff.2 fun hneg => nomatch hsign.1 hneg]
    rfl

/-- A double is its size with its sign. -/
theorem signed_eq {x y : Float} {s : Float.Model.UnpackedFloat.Sign} {m : ℕ} {e : ℤ} {hm : 0 < m}
    (h : x.toModel.unpack = .finite s m e hm) (hy : y.isFinite = true)
    (hvalue : Beat.value y = m * 2 ^ e) : (if isNegative x then -y else y) = x := by
  have hx : x.isFinite = true := by
    show x.toModel.unpack.isFinite = true
    rw [h]
    rfl
  have hxvalue : Beat.value x = Beat.sign s * (m * 2 ^ e) := by
    rw [Beat.value, h, Beat.number_finite]
  have hne : Beat.value x ≠ 0 := by
    rw [Beat.value, h]
    exact Beat.number_finite_ne_zero s e hm
  have hsame : (if isNegative x then -y else y).isFinite = true ∧
      Beat.value (if isNegative x then -y else y) = Beat.value x := by
    rw [hxvalue, ← hvalue]
    cases s with
    | negative =>
      rw [if_pos ((isNegative_of_unpack h).2 rfl), Beat.isFinite_neg, Beat.value_neg, Beat.sign,
        neg_one_mul]
      exact ⟨hy, rfl⟩
    | positive =>
      have hsign : ¬isNegative x = true := by
        intro hneg
        cases (isNegative_of_unpack h).1 hneg
      rw [if_neg hsign, Beat.sign, one_mul]
      exact ⟨hy, rfl⟩
  refine Beat.eq_of_value_eq hsame.1 hx ?_ (Beat.not_isMinusZero_of_value_ne_zero hne) hsame.2
  exact Beat.not_isMinusZero_of_value_ne_zero (hsame.2 ▸ hne)

/-- A double with a short text is read as it was written. -/
theorem readBack_of_isShort {x : Float} (hshort : IsShort x) : readBack x = .ok x := by
  obtain ⟨hx, hdigits, hpower⟩ := hshort
  have hfin : x.toModel.unpack.isFinite = true := hx
  cases h : x.toModel.unpack with
  | infinity s =>
    rw [h] at hfin
    cases hfin
  | notANumber =>
    rw [h] at hfin
    cases hfin
  | zero s => exact readBack_of_zero h
  | finite s m e hm =>
    have hdouble := isDouble_ofFloat h
    have hnumeral : doubleNumeral x = numeral (shortest .toEven (Magnitude.ofFloat x)) :=
      if_neg hdouble.mantissa_pos.ne'
    rw [hnumeral] at hdigits hpower
    obtain ⟨y, hscale, hyfin, hy⟩ := Number.scale_of_short hdigits hpower
    -- the text is in the basin of the double
    rw [numeral_value, nearest_of_mem hdouble (shortest_mem .toEven hdouble),
      Magnitude.ofFloat_of_unpack h] at hy
    have hresult : readBack x = .ok (if isNegative x then -y else y) := by
      rw [readBack_of_gives (gives_float_of_isFinite hx), hnumeral,
        Numeral.result_eq (hdigits.trans (by decide)) (exponent_lt_of_numeral hdigits hpower),
        Number.assembled, hscale]
    rw [hresult, signed_eq h hyfin hy]

end Downbeat.Json
