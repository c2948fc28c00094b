import Downbeat.Chance.Rolls
import Downbeat.Proofs.Beat.Quotient

/-!
# The rolls that there are

A roll is a number of parts of `2 ^ 53` (`Rolls.share`), and every such number below `2 ^ 53` is a
roll of some word (`Rolls.range_fraction`). A word is divided by `2 ^ 53` and a share is multiplied
by its inverse, but neither is rounded, so that they are the same doubles
(`Rolls.fraction_eq_share`).
-/

namespace Downbeat.Rolls

/-- The roll that is `k` parts of `2 ^ 53`. -/
def share (k : Nat) : Float := Float.ofNat k * (1 / 9007199254740992)

/-- The rolls that there are. -/
def shares : Set Float := {roll | ∃ k < 2 ^ 53, share k = roll}

theorem value_part : (1 / 9007199254740992 : Float).isFinite = true ∧
    Beat.value (1 / 9007199254740992) = 1 / 2 ^ 53 := by
  decide +kernel

theorem value_parts : (9007199254740992 : Float).isFinite = true ∧
    Beat.value 9007199254740992 = 2 ^ 53 := by
  decide +kernel

/-! ## Numbers of rolls -/

section

variable {k : Nat} (hk : k < 2 ^ 53)
include hk

theorem isDouble_share : Beat.IsDouble (k / 2 ^ 53) := by
  have hmantissa : |(k : ℤ)| ≤ 2 ^ 53 := by
    rw [Nat.abs_cast]
    exact_mod_cast hk.le
  exact Beat.isDouble_div_two_pow hmantissa (by norm_num)

theorem abs_share_lt : |(k / 2 ^ 53 : ℚ)| < 2 ^ (1024 : ℤ) := by
  have hmantissa : |(k : ℤ)| < 2 ^ 53 := by
    rw [Nat.abs_cast]
    exact_mod_cast hk
  exact Beat.abs_div_two_pow_lt 53 hmantissa

theorem value_share : (share k).isFinite = true ∧ Beat.value (share k) = k / 2 ^ 53 := by
  obtain ⟨hfin, hvalue⟩ := Beat.value_ofNat hk
  refine Beat.value_mul_of_eq hfin value_part.1 ?_ (isDouble_share hk) (abs_share_lt hk)
  rw [hvalue, value_part.2, mul_one_div]

end

/-- Different shares are different rolls. -/
theorem injOn_share : Set.InjOn share (Set.Iio (2 ^ 53)) := by
  intro k hk l hl h
  have hvalue : (k / 2 ^ 53 : ℚ) = l / 2 ^ 53 := by
    rw [← (value_share hk).2, ← (value_share hl).2, h]
  rw [div_left_inj' (by positivity)] at hvalue
  exact_mod_cast hvalue

/-! ## Rolls of words -/

theorem toNat_upper (n : UInt64) : (n >>> 11).toNat = n.toNat / 2 ^ 11 := by
  rw [UInt64.toNat_shiftRight, Nat.shiftRight_eq_div_pow]
  rfl

theorem toNat_upper_lt (n : UInt64) : (n >>> 11).toNat < 2 ^ 53 := by
  have hlt := n.toNat_lt
  rw [toNat_upper]
  omega

theorem value_fraction (n : UInt64) :
    (fraction n).isFinite = true ∧ Beat.value (fraction n) = (n >>> 11).toNat / 2 ^ 53 := by
  have hk := toNat_upper_lt n
  obtain ⟨hfin, hvalue⟩ := Beat.value_toFloat hk
  have hne : Beat.value 9007199254740992 ≠ 0 := by
    rw [value_parts.2]
    positivity
  refine Beat.value_div_of_eq hfin value_parts.1 hne ?_ (isDouble_share hk) (abs_share_lt hk)
  rw [hvalue, value_parts.2]

/-- The upper 53 bits of a word are its share. -/
theorem fraction_eq_share (n : UInt64) : fraction n = share (n.toNat / 2 ^ 11) := by
  have hk := toNat_upper_lt n
  rw [← toNat_upper]
  obtain ⟨hfin, hvalue⟩ := value_fraction n
  obtain ⟨hfin', hvalue'⟩ := value_share hk
  rcases Nat.eq_zero_or_pos (n >>> 11).toNat with hzero | hpos
  · -- two zeros might still differ in their signs
    have hword : n >>> 11 = 0 := UInt64.toNat_inj.1 hzero
    rw [fraction, hword]
    decide +kernel
  · have hne : ((n >>> 11).toNat / 2 ^ 53 : ℚ) ≠ 0 := by positivity
    exact Beat.eq_of_value_eq hfin hfin'
      (Beat.not_isMinusZero_of_value_ne_zero (by rw [hvalue]; exact hne))
      (Beat.not_isMinusZero_of_value_ne_zero (by rw [hvalue']; exact hne))
      (hvalue.trans hvalue'.symm)

/-- The rolls of all words are the shares. -/
theorem range_fraction : Set.range fraction = shares := by
  ext roll
  constructor
  · rintro ⟨n, rfl⟩
    have hlt := n.toNat_lt
    exact ⟨n.toNat / 2 ^ 11, by omega, (fraction_eq_share n).symm⟩
  · rintro ⟨k, hk, rfl⟩
    have hword : (UInt64.ofNat (k * 2 ^ 11)).toNat = k * 2 ^ 11 :=
      UInt64.toNat_ofNat_of_lt' (by rw [UInt64.size]; omega)
    refine ⟨UInt64.ofNat (k * 2 ^ 11), ?_⟩
    rw [fraction_eq_share, hword, Nat.mul_div_cancel _ (by decide)]

theorem draw_mem_shares (rolls : Rolls) : rolls.draw.1 ∈ shares := by
  rw [← range_fraction]
  exact Set.mem_range_self _

end Downbeat.Rolls
