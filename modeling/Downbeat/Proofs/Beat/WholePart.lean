import Downbeat.Proofs.Beat.Addition

/-!
# The whole part of a beat

A finite beat is turned into a word by leaving out the digits behind the point. What is below zero
goes to zero, and what is too large goes to the last word (`Beat.toNat_toUInt64`).

The digits are left out by the shift that also rounds sums, and the mantissa that this shift keeps
is the whole part of the number that is told (`Beat.roundToInt_eq`).
-/

namespace Downbeat.Beat

open Float.Model.UnpackedFloat

/-- The digits behind the point are left out, whatever the sign. -/
theorem roundToInt_eq (s : Sign) (m : ℕ) (e : ℤ) :
    roundToInt s m e = s.apply ⌊(m : ℚ) * 2 ^ e⌋₊ := by
  obtain ⟨k, rfl | rfl⟩ := Int.eq_nat_or_neg e
  · have hfill : decreaseExponent m k 0 = (m <<< k, 0) := by
      rw [decreaseExponent, sub_zero, Int.toNat_natCast, sub_self]
    have hfloor : ⌊(m : ℚ) * 2 ^ (k : ℤ)⌋₊ = m <<< k := by
      rw [Nat.shiftLeft_eq, zpow_natCast]
      exact_mod_cast Nat.floor_natCast (m * 2 ^ k)
    rw [hfloor]
    simp only [roundToInt, hfill]
    rfl
  · have hkeep : decreaseExponent m (-(k : ℤ)) 0 = (m, -(k : ℤ)) := by
      have hnone : (-(k : ℤ) - 0).toNat = 0 := by omega
      rw [decreaseExponent, hnone, Nat.shiftLeft_zero, Nat.cast_zero, sub_zero]
    have hdrop : (0 - -(k : ℤ)).toNat = k := by omega
    have hfloor := ((tells_exact m).shiftRight k).floor_eq
    rw [zpow_neg, zpow_natCast, ← div_eq_mul_inv, ← Int.floor_toNat, hfloor, Int.toNat_natCast]
    simp only [roundToInt, hkeep, shiftToExponent, hdrop]

theorem toNat_ofNatClamp (n : ℕ) : (UInt64.ofNatClamp n).toNat = min n (2 ^ 64 - 1) := by
  rw [UInt64.ofNatClamp]
  split
  · rw [UInt64.toNat_ofNatLT]
    exact (min_eq_left (Nat.le_sub_one_of_lt ‹_›)).symm
  · rw [UInt64.toNat_ofNatLT]
    exact (min_eq_right (Nat.sub_le_of_le_add (by omega))).symm

/-- The word of a finite beat is the whole part of its number, as far as there are words. -/
theorem toNat_toUInt64 {b : Beat} (h : b.isFinite = true) :
    b.toUInt64.toNat = min ⌊value b⌋₊ (2 ^ 64 - 1) := by
  have hword : b.toUInt64.toNat =
      min (toInt 0 (UInt64.size - 1) b.toModel.unpack).toNat (2 ^ 64 - 1) := toNat_ofNatClamp _
  have hfin : b.toModel.unpack.isFinite = true := h
  rw [hword, value]
  congr 1
  cases hb : b.toModel.unpack with
  | notANumber =>
    rw [hb] at hfin
    cases hfin
  | infinity s =>
    rw [hb] at hfin
    cases hfin
  | zero s =>
    show 0 = ⌊(0 : ℚ)⌋₊
    rw [Nat.floor_zero]
  | finite s m e hm =>
    rw [toInt, roundToInt_eq]
    cases s
    · rw [Nat.floor_of_nonpos (number_negative_neg e hm).le, Sign.apply]
      omega
    · rw [number_positive, Sign.apply, Int.toNat_natCast]

end Downbeat.Beat
