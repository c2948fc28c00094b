import Mathlib
import Downbeat.Proofs.Beat.Nearest
import Downbeat.Proofs.Beat.Order

/-!
# Sums of beats

The sum of two finite beats stands for the double nearest to the sum of their numbers, and is
infinite if that double is out of range (`Beat.place_add`). The sum is made in three steps : a
sum of mantissas is formed without loss, it is brought to the grid of doubles and rounded
there (`Beat.stands_round`), and it is packed (`Beat.unpack_pack`).

While a mantissa is brought to the grid, two bits keep what is needed of the digits that it
loses (`Beat.Tells`).
-/

namespace Downbeat.Beat

open Float.Model (Format UnpackedFloat totalExponent)
open Float.Model.UnpackedFloat

/-! ## Mantissas with two more bits -/

/-- The number between a mantissa and the next one that the two bits tell of. -/
def Tells (em : ExtendedMantissa) (q : ℚ) : Prop :=
  match em.roundBit, em.stickyBit with
  | false, false => q = em.mantissa
  | false, true => em.mantissa < q ∧ q < em.mantissa + 1 / 2
  | true, false => q = em.mantissa + 1 / 2
  | true, true => em.mantissa + 1 / 2 < q ∧ q < em.mantissa + 1

theorem tells_exact (m : ℕ) : Tells (.ofMantissaAndAccuracy m .exact) m := rfl

theorem mantissa_ofMantissaAndAccuracy (m : ℕ) (accuracy : Accuracy) :
    (ExtendedMantissa.ofMantissaAndAccuracy m accuracy).mantissa = m := by
  cases accuracy with
  | exact => rfl
  | inexact o => cases o <;> rfl

namespace Tells

variable {em : ExtendedMantissa} {q : ℚ}

theorem bounds (h : Tells em q) : (em.mantissa : ℚ) ≤ q ∧ q < em.mantissa + 1 := by
  obtain ⟨m, roundBit, stickyBit⟩ := em
  cases roundBit <;> cases stickyBit <;> simp only [Tells] at h ⊢ <;> constructor <;> linarith

theorem floor_eq (h : Tells em q) : ⌊q⌋ = em.mantissa := by
  rw [Int.floor_eq_iff]
  exact_mod_cast h.bounds

/-- The two bits are all that it takes to round. -/
theorem roundedMantissa_eq (h : Tells em q) : (em.roundedMantissa : ℤ) = roundEven q := by
  have hfloor := h.floor_eq
  obtain ⟨m, roundBit, stickyBit⟩ := em
  unfold roundEven
  rw [hfloor, ExtendedMantissa.roundedMantissa]
  cases roundBit <;> cases stickyBit <;>
    simp only [Tells, ExtendedMantissa.accuracy, Accuracy.roundToNearestEven,
      Int.cast_natCast] at h ⊢ <;>
    split_ifs <;> first | (push_cast; omega) | linarith

theorem shiftRightOne (h : Tells em q) : Tells em.shiftRightOne (q / 2) := by
  obtain ⟨m, roundBit, stickyBit⟩ := em
  have hdiv : ((m % 2 : ℕ) : ℚ) + 2 * ((m / 2 : ℕ) : ℚ) = m := by exact_mod_cast Nat.mod_add_div m 2
  rcases Nat.mod_two_eq_zero_or_one m with hm | hm <;> rw [hm] at hdiv <;>
    cases roundBit <;> cases stickyBit <;>
    simp [Tells, ExtendedMantissa.shiftRightOne, hm] at h ⊢ <;>
    (try constructor) <;> push_cast at hdiv <;> linarith

theorem shiftRight (h : Tells em q) (k : ℕ) : Tells (em >>> k) (q / 2 ^ k) := by
  show Tells (k.repeat ExtendedMantissa.shiftRightOne em) _
  induction k with
  | zero => simpa [Nat.repeat] using h
  | succ k ih =>
    rw [Nat.repeat, pow_succ, ← div_div]
    exact ih.shiftRightOne

end Tells

/-! ## Rounding -/

/-- The number of a sign. -/
def sign : Sign → ℚ
  | .negative => -1
  | .positive => 1

/-- The float is a double that stands for the number. -/
structure Stands (u : UnpackedFloat) (x : ℚ) : Prop where
  isFinite : u.isFinite = true
  isCanonical : IsCanonical u
  number_eq : number u = x

theorem number_finite {s : Sign} {m : ℕ} {e : ℤ} (hm : 0 < m) :
    number (.finite s m e hm) = sign s * (m * 2 ^ e) := by
  cases s
  · rw [number_negative, sign, neg_one_mul]
  · rw [number_positive, sign, one_mul]

theorem targetExponent_eq (m : ℕ) (e : ℤ) :
    Format.binary64.targetExponent (totalExponent m e) = max (-1074) (m.log2 + e - 52) := by
  simp only [Format.targetExponent, totalExponent, Format.mantissaBits, Format.minExponent]
  omega

/-- The exponent to which a mantissa is brought is that of the grid. -/
theorem grid_eq_targetExponent {m : ℕ} {q : ℚ} (hm : 0 < m) (hle : (m : ℚ) ≤ q)
    (hlt : q < m + 1) (e : ℤ) :
    grid (q * 2 ^ e) = Format.binary64.targetExponent (totalExponent m e) := by
  have hlow : (2 : ℚ) ^ (m.log2 + e) ≤ q * 2 ^ e := by
    have h : (2 : ℚ) ^ m.log2 ≤ m := by exact_mod_cast Nat.log2_self_le hm.ne'
    rw [two_zpow_add, zpow_natCast]
    exact mul_le_mul_of_nonneg_right (h.trans hle) (two_zpow_pos e).le
  have hhigh : q * 2 ^ e < (2 : ℚ) ^ (m.log2 + e + 1) := by
    have h : (m : ℚ) + 1 ≤ 2 ^ (m.log2 + 1) := by exact_mod_cast Nat.lt_log2_self
    rw [add_right_comm, two_zpow_add]
    have h' : q < (2 : ℚ) ^ ((m.log2 : ℤ) + 1) := by exact_mod_cast hlt.trans_le h
    exact mul_lt_mul_of_pos_right h' (two_zpow_pos e)
  have hpos : 0 < q * 2 ^ e := (two_zpow_pos _).trans_le hlow
  have hlog : Int.log 2 (q * 2 ^ e) = m.log2 + e := by
    have h₁ : (m.log2 : ℤ) + e ≤ Int.log 2 (q * 2 ^ e) :=
      (Int.zpow_le_iff_le_log Nat.one_lt_two hpos).1 (by exact_mod_cast hlow)
    have h₂ : Int.log 2 (q * 2 ^ e) < m.log2 + e + 1 :=
      (Int.lt_zpow_iff_log_lt Nat.one_lt_two hpos).1 (by exact_mod_cast hhigh)
    omega
  rw [targetExponent_eq, grid, abs_of_pos hpos, hlog]

theorem shiftToTargetExponent_of_lt {m : ℕ} {e : ℤ} (hm : m < 2 ^ 53) (he : -1074 ≤ e) :
    shiftToTargetExponent .binary64 m e .exact = (⟨m, false, false⟩, e) := by
  have hlog : m.log2 ≤ 52 := by
    by_cases h : m = 0
    · simp [h]
    · have := (Nat.log2_lt h).2 hm
      omega
  have hshift : (Format.binary64.targetExponent (totalExponent m e) - e).toNat = 0 := by
    rw [targetExponent_eq]
    omega
  rw [shiftToTargetExponent, shiftToExponent, hshift]
  simp [HShiftRight.hShiftRight, Nat.repeat, ExtendedMantissa.ofMantissaAndAccuracy]

theorem shiftToTargetExponent_two_pow {e : ℤ} (he : -1074 ≤ e) :
    shiftToTargetExponent .binary64 (2 ^ 53) e .exact = (⟨2 ^ 52, false, false⟩, e + 1) := by
  have hshift : (Format.binary64.targetExponent (totalExponent (2 ^ 53) e) - e).toNat = 1 := by
    rw [targetExponent_eq, Nat.log2_two_pow]
    omega
  rw [shiftToTargetExponent, shiftToExponent, hshift]
  rfl

/-- A rounded mantissa may be one too long, and is then brought back. -/
theorem stands_carry (s : Sign) {m : ℕ} {e : ℤ} (hm : m ≤ 2 ^ 53) (he : -1074 ≤ e)
    (hfull : -1074 < e → 2 ^ 52 ≤ m) :
    Stands
      (if h : (shiftToTargetExponent .binary64 m e .exact).1.mantissa = 0 then .zero s
      else .finite s (shiftToTargetExponent .binary64 m e .exact).1.mantissa
        (shiftToTargetExponent .binary64 m e .exact).2 (Nat.pos_of_ne_zero h))
      (sign s * (m * 2 ^ e)) := by
  rcases hm.lt_or_eq with hlt | rfl
  · rw! [shiftToTargetExponent_of_lt hlt he]
    by_cases hzero : m = 0
    · rw [dif_pos hzero]
      exact ⟨rfl, trivial, by simp [hzero, number]⟩
    · rw [dif_neg hzero]
      exact ⟨rfl, ⟨hlt, he, hfull⟩, number_finite _⟩
  · rw! [shiftToTargetExponent_two_pow he]
    rw [dif_neg (by norm_num)]
    refine ⟨rfl, ⟨by norm_num, by omega, fun _ => by norm_num⟩, ?_⟩
    rw [number_finite, two_zpow_add]
    push_cast
    ring

/-- What is kept of a mantissa is at most one digit too long once it is rounded. -/
theorem roundEven_shift_le {m k : ℕ} {q : ℚ} (hq : q < m + 1) (h : m.log2 ≤ 52 + k) :
    roundEven (q / 2 ^ k) ≤ 2 ^ 53 := by
  refine roundEven_le ?_
  rw [div_le_iff₀ (by positivity)]
  have hm : m + 1 ≤ 2 ^ 53 * 2 ^ k := by
    rw [← pow_add]
    exact Nat.lt_log2_self.trans_le (Nat.pow_le_pow_right (by decide) (by omega))
  exact hq.le.trans (by exact_mod_cast hm)

theorem le_roundEven_shift {m k : ℕ} {q : ℚ} (hq : m ≤ q) (h : 52 + k ≤ m.log2) :
    2 ^ 52 ≤ roundEven (q / 2 ^ k) := by
  refine le_roundEven ?_
  rw [le_div_iff₀ (by positivity)]
  have hm : m ≠ 0 := by
    rintro rfl
    rw [Nat.log2_zero] at h
    omega
  have hm' : 2 ^ 52 * 2 ^ k ≤ m := by
    rw [← pow_add]
    exact (Nat.pow_le_pow_right (by decide) h).trans (Nat.log2_self_le hm)
  exact le_trans (by exact_mod_cast hm') hq

/-- A mantissa that tells of a number is brought to the grid of the number and rounded there. -/
theorem stands_of_tells (s : Sign) {m : ℕ} {e : ℤ} {accuracy : Accuracy} {q : ℚ}
    (hq : Tells (.ofMantissaAndAccuracy m accuracy) q)
    (he : e ≤ Format.binary64.targetExponent (totalExponent m e))
    (hgrid : grid (q * 2 ^ e) = Format.binary64.targetExponent (totalExponent m e)) :
    Stands (roundWithAccuracy .binary64 s m e accuracy) (sign s * nearest (q * 2 ^ e)) := by
  have hm := hq.bounds
  rw [mantissa_ofMantissaAndAccuracy] at hm
  obtain ⟨k, hk⟩ := Int.exists_add_of_le he
  have htarget : e + k = max (-1074) (m.log2 + e - 52) := hk ▸ targetExponent_eq m e
  set em := ExtendedMantissa.ofMantissaAndAccuracy m accuracy >>> k with hem
  have hshift : shiftToTargetExponent .binary64 m e accuracy = (em, e + k) := by
    rw [shiftToTargetExponent, shiftToExponent, hk, add_sub_cancel_left, Int.toNat_natCast]
  have hround : (em.roundedMantissa : ℤ) = roundEven (q / 2 ^ k) :=
    (hq.shiftRight k).roundedMantissa_eq
  have hscale : q * 2 ^ e / 2 ^ (e + k) = q / 2 ^ k := by
    rw [two_zpow_add, zpow_natCast, mul_comm (2 ^ e : ℚ),
      mul_div_mul_right _ _ (two_zpow_pos e).ne']
  have hnearest : nearest (q * 2 ^ e) = em.roundedMantissa * 2 ^ (e + k) := by
    rw [nearest, hgrid, hk, hscale, ← hround, Int.cast_natCast]
  have hle : em.roundedMantissa ≤ 2 ^ 53 := by
    have h := roundEven_shift_le hm.2 (by omega : m.log2 ≤ 52 + k)
    rw [← hround] at h
    exact_mod_cast h
  have hfull : -1074 < e + k → 2 ^ 52 ≤ em.roundedMantissa := by
    intro hnormal
    have h := le_roundEven_shift hm.1 (by omega : 52 + k ≤ m.log2)
    rw [← hround] at h
    exact_mod_cast h
  rw [hnearest, roundWithAccuracy, hshift]
  exact stands_carry s hle (by omega) hfull

/-- The mantissa of an exact number is brought to the grid and rounded there. -/
theorem stands_roundWithAccuracy (s : Sign) {m : ℕ} {e : ℤ} (hm : 0 < m)
    (he : e ≤ Format.binary64.targetExponent (totalExponent m e)) :
    Stands (roundWithAccuracy .binary64 s m e .exact) (sign s * nearest (m * 2 ^ e)) :=
  stands_of_tells s (tells_exact m) he
    (grid_eq_targetExponent hm le_rfl (lt_add_one _) e)

/-- A mantissa that is too short is filled up first. -/
theorem stands_round (s : Sign) {m : ℕ} (hm : 0 < m) (e : ℤ) :
    Stands (round .binary64 s m e) (sign s * nearest (m * 2 ^ e)) := by
  set k := (e - Format.binary64.targetExponent (totalExponent m e)).toNat with hk
  have hvalue : ((m <<< k : ℕ) : ℚ) * 2 ^ (e - k) = m * 2 ^ e := by
    rw [Nat.shiftLeft_eq, Nat.cast_mul, Nat.cast_pow, Nat.cast_ofNat, mul_assoc, ← zpow_natCast,
      ← two_zpow_add, add_sub_cancel]
  have hpos : 0 < m <<< k := by
    rw [Nat.shiftLeft_eq]
    positivity
  have htarget : Format.binary64.targetExponent (totalExponent (m <<< k) (e - k)) =
      Format.binary64.targetExponent (totalExponent m e) := by
    rw [← grid_eq_targetExponent hpos le_rfl (lt_add_one _), hvalue,
      grid_eq_targetExponent hm le_rfl (lt_add_one _)]
  rw [← hvalue]
  exact stands_roundWithAccuracy s hpos (by rw [htarget]; omega)

theorem stands_normalize (n e : ℤ) :
    Stands (UnpackedFloat.normalize .binary64 n e .positive) (nearest (n * 2 ^ e)) := by
  rw [UnpackedFloat.normalize]
  rcases lt_trichotomy n 0 with hn | rfl | hn
  · have hcast : (((-n).toNat : ℕ) : ℚ) = -n := by
      rw [← Int.cast_neg]
      exact_mod_cast Int.toNat_of_nonneg (by omega : 0 ≤ -n)
    rw [compare_lt_iff_lt.2 hn]
    have h := stands_round .negative (by omega : 0 < (-n).toNat) e
    rwa [hcast, neg_mul, nearest_neg, sign, neg_one_mul, neg_neg] at h
  · rw [compare_eq_iff_eq.2 rfl, Int.cast_zero, zero_mul, nearest_zero]
    exact ⟨rfl, trivial, rfl⟩
  · have hcast : ((n.toNat : ℕ) : ℚ) = n := by
      exact_mod_cast Int.toNat_of_nonneg hn.le
    rw [compare_gt_iff_gt.2 hn]
    have h := stands_round .positive (by omega : 0 < n.toNat) e
    rwa [hcast, sign, one_mul] at h

/-! ## Sums -/

theorem isDouble_number {u : UnpackedFloat} (hu : IsCanonical u) : IsDouble (number u) := by
  cases u with
  | finite s m e hm =>
    obtain ⟨hm53, he, -⟩ := hu
    refine ⟨s.apply m, e, ?_, he, rfl⟩
    cases s <;> simp only [Sign.apply, abs_neg, Nat.abs_cast] <;> exact_mod_cast hm53.le
  | _ => exact ⟨0, 0, by norm_num, by norm_num, by simp [number]⟩

theorem decreaseExponent_eq (s : Sign) (m : ℕ) {e t : ℤ} (h : t ≤ e) :
    (s.apply ((decreaseExponent m e t).1 : ℤ) : ℚ) * 2 ^ t = s.apply m * 2 ^ e := by
  have hvalue : (((decreaseExponent m e t).1 : ℕ) : ℚ) * 2 ^ t = m * 2 ^ e := by
    rw [decreaseExponent, Nat.shiftLeft_eq, Nat.cast_mul, Nat.cast_pow, Nat.cast_ofNat, mul_assoc,
      ← zpow_natCast, ← two_zpow_add]
    congr 2
    omega
  cases s
  · simp only [Sign.apply, Int.cast_neg, Int.cast_natCast, neg_mul, hvalue]
  · simp only [Sign.apply, Int.cast_natCast, hvalue]

theorem number_add_number (s t : Sign) {m n : ℕ} (e f : ℤ) (hm : 0 < m) (hn : 0 < n) :
    number (.finite s m e hm) + number (.finite t n f hn) =
      ((s.apply ((decreaseExponent m e (min e f)).1 : ℤ) +
        t.apply ((decreaseExponent n f (min e f)).1 : ℤ) : ℤ) : ℚ) * 2 ^ min e f := by
  rw [Int.cast_add, add_mul, decreaseExponent_eq s m (min_le_left e f),
    decreaseExponent_eq t n (min_le_right e f)]
  rfl

theorem stands_add {u v : UnpackedFloat} (hu : IsCanonical u) (hv : IsCanonical v)
    (hu' : u.isFinite = true) (hv' : v.isFinite = true) :
    Stands (add .binary64 u v) (nearest (number u + number v)) := by
  cases u with
  | infinity s => cases hu'
  | notANumber => cases hu'
  | zero s =>
    cases v with
    | infinity t => cases hv'
    | notANumber => cases hv'
    | zero t =>
      have hzero : nearest (number (.zero s) + number (.zero t)) = 0 := by
        simp [number, nearest_zero]
      rw [hzero]
      cases s <;> cases t <;> exact ⟨rfl, trivial, rfl⟩
    | finite t n f hn =>
      have hzero : number (.zero s) = 0 := rfl
      rw [hzero, zero_add, nearest_of_isDouble (isDouble_number hv)]
      exact ⟨rfl, hv, rfl⟩
  | finite s m e hm =>
    cases v with
    | infinity t => cases hv'
    | notANumber => cases hv'
    | zero t =>
      have hzero : number (.zero t) = 0 := rfl
      rw [hzero, add_zero, nearest_of_isDouble (isDouble_number hu)]
      exact ⟨rfl, hu, rfl⟩
    | finite t n f hn =>
      rw [number_add_number]
      exact stands_normalize _ _

/-! ## Packing -/

/-- The float, with infinity in the place of what is out of range. -/
def bounded : UnpackedFloat → UnpackedFloat
  | .finite s m e hm => if e ≤ 971 then .finite s m e hm else .infinity s
  | u => u

theorem exponentBias_eq : (Format.binary64.exponentBias : ℤ) = 1023 := by decide

theorem biased_eq (e : ℤ) :
    (e + (Format.binary64.exponentBias : ℤ) + ((52 : ℕ) : ℤ)).toNat = (e + 1075).toNat := by
  have hbias := exponentBias_eq
  omega

theorem unpack_pack_of_gt (s : Sign) {m : ℕ} {e : ℤ} (hm : 0 < m) (he : 971 < e) :
    (Float.Model.pack (.finite s m e hm)).unpack = .infinity s := by
  have hlarge : 2 ^ Format.binary64.exponentBits ≤ (e + 1075).toNat + 1 := by
    show 2 ^ 11 ≤ _
    omega
  show unpack .binary64 (pack .binary64 _) = _
  simp only [pack, biased_eq]
  rw [if_pos hlarge]
  cases s <;> rfl

theorem unpack_pack_of_normal (s : Sign) {m : ℕ} {e : ℤ} (hm : 0 < m) (hlow : 2 ^ 52 ≤ m)
    (hhigh : m < 2 ^ 53) (he : -1074 ≤ e) (he' : e ≤ 971) :
    (Float.Model.pack (.finite s m e hm)).unpack = .finite s m e hm := by
  have hsmall : ¬2 ^ Format.binary64.exponentBits ≤ (e + 1075).toNat + 1 := by
    show ¬2 ^ 11 ≤ _
    omega
  have hlog : m.log2 + 1 = Format.binary64.mantissaBits := by
    rw [(Nat.log2_eq_iff hm.ne').2 ⟨hlow, hhigh⟩]
    rfl
  have hexponent : (BitVec.ofNat Format.binary64.exponentBits (e + 1075).toNat).toNat =
      (e + 1075).toNat := by
    rw [BitVec.toNat_ofNat]
    exact Nat.mod_eq_of_lt (by show _ < 2 ^ 11; omega)
  have hinf : BitVec.ofNat Format.binary64.exponentBits (e + 1075).toNat ≠ -1#_ := by
    intro h
    have hones : (-1#11).toNat = 2047 := by decide
    have := (congrArg BitVec.toNat h).trans hones
    omega
  have hzero : BitVec.ofNat Format.binary64.exponentBits (e + 1075).toNat ≠ 0#_ := by
    intro h
    have hnone : (0#11).toNat = 0 := by decide
    have := (congrArg BitVec.toNat h).trans hnone
    omega
  have hmantissa :
      (1#1 ++ BitVec.ofNat Format.binary64.mantissaBitsWithoutImplicit m).toNat = m := by
    rw [BitVec.toNat_append, ← Nat.shiftLeft_add_eq_or_of_lt (BitVec.isLt _), BitVec.toNat_ofNat]
    show 2 ^ 52 + m % 2 ^ 52 = m
    omega
  show unpack .binary64 (pack .binary64 _) = _
  simp only [pack, biased_eq]
  rw [if_neg hsmall, if_pos hlog]
  simp only [unpack, unpackExponent_packComponents, unpackMantissa_packComponents,
    unpackSign_packComponents, Sign.ofBitVec_toBitVec]
  rw [if_neg hinf, if_neg hzero]
  have hbias := exponentBias_eq
  simp only [hmantissa, hexponent]
  congr 1
  omega

theorem unpack_pack_of_subnormal (s : Sign) {m : ℕ} (hm : 0 < m) (hlow : m < 2 ^ 52) :
    (Float.Model.pack (.finite s m (-1074) hm)).unpack = .finite s m (-1074) hm := by
  have hlog : m.log2 + 1 ≠ Format.binary64.mantissaBits := by
    have := (Nat.log2_lt hm.ne').2 hlow
    show m.log2 + 1 ≠ 53
    omega
  have hmantissa : (BitVec.ofNat Format.binary64.mantissaBitsWithoutImplicit m).toNat = m := by
    rw [BitVec.toNat_ofNat]
    exact Nat.mod_eq_of_lt hlow
  have hzero : BitVec.ofNat Format.binary64.mantissaBitsWithoutImplicit m ≠ 0#_ := by
    intro h
    have := congrArg BitVec.toNat h
    rw [hmantissa] at this
    exact hm.ne' this
  show unpack .binary64 (pack .binary64 _) = _
  simp only [pack, biased_eq]
  rw [if_neg (by decide), if_neg hlog]
  simp only [unpack, unpackExponent_packComponents, unpackMantissa_packComponents,
    unpackSign_packComponents, Sign.ofBitVec_toBitVec]
  rw [if_neg (by decide), if_pos True.intro, dif_neg hzero]
  simp only [hmantissa]
  rfl

/-- Packing a double loses nothing, unless the double is out of range. -/
theorem unpack_pack {u : UnpackedFloat} (hu : IsCanonical u) :
    (Float.Model.pack u).unpack = bounded u := by
  cases u with
  | notANumber => rfl
  | infinity s => cases s <;> rfl
  | zero s => cases s <;> rfl
  | finite s m e hm =>
    obtain ⟨hm53, he, hfull⟩ := hu
    rw [bounded]
    split_ifs with hrange
    · by_cases hnormal : 2 ^ 52 ≤ m
      · exact unpack_pack_of_normal s hm hnormal hm53 he hrange
      · obtain rfl : e = -1074 := by omega
        exact unpack_pack_of_subnormal s hm (not_le.1 hnormal)
    · exact unpack_pack_of_gt s hm (not_le.1 hrange)

/-! ## Range -/

/-- The place of a double of any size. -/
def inRange (x : ℚ) : WithBot (WithTop ℚ) :=
  if |x| < 2 ^ (1024 : ℤ) then ((x : WithTop ℚ) : WithBot (WithTop ℚ))
  else if 0 < x then ((⊤ : WithTop ℚ) : WithBot (WithTop ℚ)) else ⊥

theorem inRange_of_abs_lt {x : ℚ} (h : |x| < 2 ^ (1024 : ℤ)) :
    inRange x = ((x : WithTop ℚ) : WithBot (WithTop ℚ)) := if_pos h

theorem inRange_mono {x y : ℚ} (h : x ≤ y) : inRange x ≤ inRange y := by
  unfold inRange
  split_ifs with hx hy hy' hx' hy hy' hy hy'
  · exact_mod_cast h
  · exact WithBot.coe_le_coe.2 le_top
  · -- a number in range is not above one below the range
    rw [abs_of_nonpos (not_lt.1 hy'), not_lt] at hy
    rw [abs_lt] at hx
    linarith
  · rw [abs_of_pos hx', not_lt] at hx
    rw [abs_lt] at hy
    linarith
  · exact le_rfl
  · exact absurd (hx'.trans_le h) hy'
  · exact bot_le
  · exact bot_le
  · exact bot_le

theorem inRange_lt {x y : ℚ} (hx : |x| < 2 ^ (1024 : ℤ)) (h : x < y) : inRange x < inRange y := by
  rw [inRange_of_abs_lt hx]
  by_cases hy : |y| < 2 ^ (1024 : ℤ)
  · rw [inRange_of_abs_lt hy]
    exact_mod_cast h
  · have hpos : 0 < y := by
      by_contra hneg
      rw [abs_of_nonpos (not_lt.1 hneg), not_lt] at hy
      rw [abs_lt] at hx
      linarith
    rw [inRange, if_neg hy, if_pos hpos]
    exact WithBot.coe_lt_coe.2 (WithTop.coe_lt_top x)

/-- A double is in range if its exponent is. -/
theorem abs_number_lt_iff {s : Sign} {m : ℕ} {e : ℤ} {hm : 0 < m}
    (hu : IsCanonical (.finite s m e hm)) :
    |number (.finite s m e hm)| < 2 ^ (1024 : ℤ) ↔ e ≤ 971 := by
  obtain ⟨hm53, -, hfull⟩ := hu
  have habs : |number (.finite s m e hm)| = m * 2 ^ e := by
    have hpos : (0 : ℚ) ≤ m * 2 ^ e := mul_nonneg (Nat.cast_nonneg m) (two_zpow_pos e).le
    cases s
    · rw [number_negative, abs_neg, abs_of_nonneg hpos]
    · rw [number_positive, abs_of_nonneg hpos]
  rw [habs]
  constructor
  · intro h
    by_contra hgt
    have hle : (2 : ℚ) ^ (52 : ℤ) ≤ m := by exact_mod_cast hfull (by omega)
    have hpow : (2 : ℚ) ^ (1024 : ℤ) ≤ m * 2 ^ e := calc
      (2 : ℚ) ^ (1024 : ℤ) ≤ 2 ^ (52 + e) := two_zpow_le.2 (by omega)
      _ = 2 ^ (52 : ℤ) * 2 ^ e := two_zpow_add _ _
      _ ≤ m * 2 ^ e := mul_le_mul_of_nonneg_right hle (two_zpow_pos e).le
    exact absurd h hpow.not_gt
  · intro h
    have hlt : (m : ℚ) < 2 ^ (53 : ℤ) := by exact_mod_cast hm53
    calc (m : ℚ) * 2 ^ e < 2 ^ (53 : ℤ) * 2 ^ e := mul_lt_mul_of_pos_right hlt (two_zpow_pos e)
      _ = 2 ^ (53 + e) := (two_zpow_add _ _).symm
      _ ≤ 2 ^ (1024 : ℤ) := two_zpow_le.2 (by omega)

theorem rank_bounded {u : UnpackedFloat} (hu : IsCanonical u) (hfin : u.isFinite = true) :
    rank (bounded u) = inRange (number u) := by
  cases u with
  | notANumber => cases hfin
  | infinity s => cases hfin
  | zero s =>
    have hzero : number (.zero s) = 0 := rfl
    rw [hzero, inRange_of_abs_lt (by rw [abs_zero]; exact two_zpow_pos _)]
    rfl
  | finite s m e hm =>
    rw [bounded]
    split_ifs with hrange
    · rw [inRange_of_abs_lt ((abs_number_lt_iff hu).2 hrange), rank_of_isFinite rfl]
    · have hout : ¬|number (.finite s m e hm)| < 2 ^ (1024 : ℤ) :=
        fun h => hrange ((abs_number_lt_iff hu).1 h)
      rw [inRange, if_neg hout]
      cases s
      · rw [if_neg (number_negative_neg e hm).not_gt]
        rfl
      · rw [if_pos (number_positive_pos e hm)]
        rfl

/-! ## The place of a sum -/

theorem place_of_isFinite {b : Beat} (hb : b.isFinite = true) :
    place b = ((value b : WithTop ℚ) : WithBot (WithTop ℚ)) := rank_of_isFinite hb

theorem isNaN_of_isFinite {b : Beat} (hb : b.isFinite = true) : b.isNaN = false := by
  have hfin : b.toModel.unpack.isFinite = true := hb
  show b.toModel.unpack.isNaN = false
  cases h : b.toModel.unpack with
  | notANumber =>
    rw [h] at hfin
    cases hfin
  | _ => rfl

/-- A beat that is neither finite nor no number is at one end of the line. -/
theorem isFinite_or_unpack_eq {b : Beat} (hb : b.isNaN = false) :
    b.isFinite = true ∨ ∃ s, b.toModel.unpack = .infinity s := by
  by_cases hfin : b.isFinite = true
  · exact .inl hfin
  · exact .inr (exists_eq_infinity hfin hb)

theorem isFinite_of_place_eq {b : Beat} {x : ℚ} (hb : b.isNaN = false)
    (h : place b = ((x : WithTop ℚ) : WithBot (WithTop ℚ))) : b.isFinite = true ∧ value b = x := by
  rcases isFinite_or_unpack_eq hb with hfin | ⟨s, hs⟩
  · rw [place_of_isFinite hfin] at h
    exact ⟨hfin, by exact_mod_cast h⟩
  · rw [place, hs] at h
    cases s <;> cases h

theorem isDouble_value (b : Beat) : IsDouble (value b) := isDouble_number (isCanonical_unpack b)

/-- A beat that is packed is where the double is that it was packed from. -/
theorem place_of_stands {b : Beat} {u : UnpackedFloat} {x : ℚ} (hu : Stands u x)
    (hb : b.toModel = .pack u) : b.isNaN = false ∧ place b = inRange x := by
  obtain ⟨hfin, hcanonical, hnumber⟩ := hu
  have hunpack : b.toModel.unpack = bounded u := by rw [hb, unpack_pack hcanonical]
  constructor
  · show b.toModel.unpack.isNaN = false
    rw [hunpack]
    cases u with
    | finite s m e hm =>
      rw [bounded]
      split_ifs <;> rfl
    | zero s => rfl
    | _ => cases hfin
  · rw [place, hunpack, rank_bounded hcanonical hfin, hnumber]

/-- The sum of finite beats is where the double nearest to the sum of their numbers is. -/
theorem place_add {a b : Beat} (ha : a.isFinite = true) (hb : b.isFinite = true) :
    (a + b).isNaN = false ∧ place (a + b) = inRange (nearest (value a + value b)) :=
  place_of_stands (stands_add (isCanonical_unpack a) (isCanonical_unpack b) ha hb) rfl

/-- A beat that is packed from a double in range is finite. -/
theorem value_of_stands {b : Beat} {u : UnpackedFloat} {x : ℚ} (hu : Stands u x)
    (hb : b.toModel = .pack u) (hx : |x| < 2 ^ (1024 : ℤ)) : b.isFinite = true ∧ value b = x := by
  obtain ⟨hnan, hplace⟩ := place_of_stands hu hb
  rw [inRange_of_abs_lt hx] at hplace
  exact isFinite_of_place_eq hnan hplace

/-- The sum of finite beats is finite unless it is out of range. -/
theorem value_add {a b : Beat} (ha : a.isFinite = true) (hb : b.isFinite = true)
    (h : |nearest (value a + value b)| < 2 ^ (1024 : ℤ)) :
    (a + b).isFinite = true ∧ value (a + b) = nearest (value a + value b) :=
  value_of_stands (stands_add (isCanonical_unpack a) (isCanonical_unpack b) ha hb) rfl h

/-- A sum that is a double is not rounded. -/
theorem value_add_of_eq {a b : Beat} {x : ℚ} (ha : a.isFinite = true) (hb : b.isFinite = true)
    (h : value a + value b = x) (hx : IsDouble x) (hlt : |x| < 2 ^ (1024 : ℤ)) :
    (a + b).isFinite = true ∧ value (a + b) = x := by
  have hexact : nearest (value a + value b) = x := by rw [h, nearest_of_isDouble hx]
  rw [← hexact] at hlt ⊢
  exact value_add ha hb hlt

/-- Finite beats compare as their numbers do. -/
theorem le_iff_value {a b : Beat} (ha : a.isFinite = true) (hb : b.isFinite = true) :
    a ≤ b ↔ value a ≤ value b := by
  rw [le_iff, place_of_isFinite ha, place_of_isFinite hb, isNaN_of_isFinite ha,
    isNaN_of_isFinite hb]
  simp

theorem lt_iff_value {a b : Beat} (ha : a.isFinite = true) (hb : b.isFinite = true) :
    a < b ↔ value a < value b := by
  rw [lt_iff, place_of_isFinite ha, place_of_isFinite hb, isNaN_of_isFinite ha,
    isNaN_of_isFinite hb]
  simp

theorem exponent_le_of_unpack {b : Beat} {s : Sign} {m : ℕ} {e : ℤ} {hm : 0 < m}
    (h : b.toModel.unpack = .finite s m e hm) : e ≤ 971 := by
  have hbias := exponentBias_eq
  unfold Float.Model.unpack unpack at h
  extract_lets mantissa biased exponent at h
  have hlt : biased.toNat < 2 ^ 11 := biased.isLt
  by_cases hinf : biased = -1#_
  · rw [if_pos hinf] at h
    split_ifs at h
  · have hne : biased.toNat ≠ 2047 := fun hones => hinf (BitVec.eq_of_toNat_eq hones)
    have hexponent : exponent = biased.toNat - (1023 + 52) := by
      rw [← hbias]
      rfl
    rw [if_neg hinf] at h
    split_ifs at h with hzero hm'
    · obtain ⟨-, -, he⟩ := UnpackedFloat.finite.inj h
      have hnone : biased.toNat = 0 := by rw [hzero]; rfl
      omega
    · obtain ⟨-, -, he⟩ := UnpackedFloat.finite.inj h
      omega

/-- A finite beat is in range. -/
theorem abs_value_lt (b : Beat) : |value b| < 2 ^ (1024 : ℤ) := by
  have hcanonical := isCanonical_unpack b
  rw [value]
  cases h : b.toModel.unpack with
  | finite s m e hm =>
    rw [h] at hcanonical
    exact (abs_number_lt_iff hcanonical).2 (exponent_le_of_unpack h)
  | _ => simp [number]

end Downbeat.Beat
