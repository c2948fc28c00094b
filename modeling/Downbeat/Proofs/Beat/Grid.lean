import Downbeat.Proofs.Beat.Whole

/-!
# Beats on a grid

A beat that is a multiple of `2 ^ -10` is told by the number of its steps (`Beat.Steps`). Sums and
differences of less than `2 ^ 53` steps are not rounded (`Beat.Steps.add`, `Beat.Steps.sub`), so
beats on the grid are added and compared as their steps are.
-/

namespace Downbeat.Beat

/-- The beat is `n` steps of `2 ^ -10` beats. -/
structure Steps (b : Beat) (n : ℤ) : Prop where
  isFinite : b.isFinite = true
  value_eq : value b = n / 2 ^ 10

/-- The beat is a multiple of `2 ^ -10` beats, and less than `2 ^ 40` beats from zero. -/
def OnGrid (b : Beat) : Prop := ∃ n : ℤ, |n| < 2 ^ 50 ∧ Steps b n

theorem steps_ofNat {k : ℕ} (h : k < 2 ^ 43) : Steps (Float.ofNat k) (2 ^ 10 * k) := by
  obtain ⟨hfin, hvalue⟩ := value_ofNat (h.trans (by norm_num))
  refine ⟨hfin, ?_⟩
  rw [hvalue]
  push_cast
  ring

namespace Steps

variable {a b : Beat} {m n : ℤ}

theorem add (ha : Steps a m) (hb : Steps b n) (h : |m + n| < 2 ^ 53) : Steps (a + b) (m + n) := by
  have hsum : value a + value b = (m + n : ℤ) / 2 ^ 10 := by
    rw [ha.value_eq, hb.value_eq]
    push_cast
    ring
  obtain ⟨hfin, hvalue⟩ := value_add_of_eq ha.isFinite hb.isFinite hsum
    (isDouble_div_two_pow h.le (by norm_num)) (abs_div_two_pow_lt 10 h)
  exact ⟨hfin, hvalue⟩

theorem neg (ha : Steps a m) : Steps (-a) (-m) := by
  refine ⟨isFinite_neg.trans ha.isFinite, ?_⟩
  rw [value_neg, ha.value_eq]
  push_cast
  ring

theorem sub (ha : Steps a m) (hb : Steps b n) (h : |m - n| < 2 ^ 53) : Steps (a - b) (m - n) := by
  rw [sub_eq_add_neg, Int.sub_eq_add_neg]
  exact ha.add hb.neg h

theorem le_iff (ha : Steps a m) (hb : Steps b n) : a ≤ b ↔ m ≤ n := by
  rw [le_iff_value ha.isFinite hb.isFinite, ha.value_eq, hb.value_eq,
    div_le_div_iff_of_pos_right (by positivity), Int.cast_le]

theorem le_floor_sub (ha : Steps a m) (hb : Steps b n) {k : ℤ} (h : 2 ^ 10 * k ≤ n - m) :
    k ≤ ⌊value b - value a⌋ := by
  have hcast : (2 : ℚ) ^ 10 * k ≤ n - m := by exact_mod_cast h
  rw [Int.le_floor, ha.value_eq, hb.value_eq, ← sub_div, le_div_iff₀ (by positivity), mul_comm]
  exact hcast

end Steps

end Downbeat.Beat
