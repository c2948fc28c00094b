import Downbeat.Decimal.Shortest
import Downbeat.Proofs.Beat.Nearest

/-!
# What the fewest digits stand for

The search for the fewest digits of a double ends with a decimal in its basin (`shortest_mem`) :
on one of the grids that are tried a multiple of the power of ten is nearer to the double than the
ends of its basin are (`Basin.hit_of_fine`), and each hit is in the basin (`Basin.holds_of_hit`).
What is in the basin of a double rounds to it (`nearest_of_mem`).
-/

namespace Downbeat.Decimal

/-! ## Powers -/

theorem powNum_eq {b : ℕ} (hb : 0 < b) (e : ℤ) : (powNum b e : ℚ) = (b : ℚ) ^ e * powDen b e := by
  have hb' : (b : ℚ) ≠ 0 := by exact_mod_cast hb.ne'
  have hcast : ∀ k : ℕ, ((Nat.pow b k : ℕ) : ℚ) = (b : ℚ) ^ (k : ℤ) := fun k => by
    rw [zpow_natCast]
    exact Nat.cast_pow b k
  rw [powNum, powDen, hcast, hcast, ← zpow_add₀ hb']
  congr 1
  omega

theorem powNum_pos {b : ℕ} (hb : 0 < b) (e : ℤ) : 0 < powNum b e := Nat.pow_pos hb

theorem powDen_pos {b : ℕ} (hb : 0 < b) (e : ℤ) : 0 < powDen b e := Nat.pow_pos hb

namespace Basin

variable {b : Basin} {tie : Tie} {k : ℤ} {n : ℕ}

/-! ## The basin -/

/-- The number is in the basin. -/
def Mem (b : Basin) (y : ℚ) : Prop :=
  b.low * 2 ^ b.exponent ≤ y ∧ y ≤ b.high * 2 ^ b.exponent ∧
    (b.closed = false → b.low * 2 ^ b.exponent < y ∧ y < b.high * 2 ^ b.exponent)

theorem edgeScale_pos (b : Basin) (k : ℤ) : 0 < b.edgeScale k :=
  Nat.mul_pos (powNum_pos (by decide) _) (powDen_pos (by decide) _)

theorem gridScale_pos (b : Basin) (k : ℤ) : 0 < b.gridScale k :=
  Nat.mul_pos (powNum_pos (by decide) _) (powDen_pos (by decide) _)

theorem mul_gridScale_eq (b : Basin) (k : ℤ) (n : ℕ) : ((n * b.gridScale k : ℕ) : ℚ) =
    (n * 10 ^ k) * (powDen 10 k * powDen 2 b.exponent) := by
  rw [gridScale, Nat.cast_mul, Nat.cast_mul, powNum_eq (by decide), Nat.cast_ofNat]
  ring

theorem mul_edgeScale_eq (b : Basin) (k : ℤ) (n : ℕ) : ((n * b.edgeScale k : ℕ) : ℚ) =
    (n * 2 ^ b.exponent) * (powDen 10 k * powDen 2 b.exponent) := by
  rw [edgeScale, Nat.cast_mul, Nat.cast_mul, powNum_eq (by decide), Nat.cast_ofNat]
  ring

theorem mem_of_holds (h : b.holds k n = true) : b.Mem (n * 10 ^ k) := by
  have hpos : (0 : ℚ) < powDen 10 k * powDen 2 b.exponent := by
    have := powDen_pos (b := 10) (by decide) k
    have := powDen_pos (b := 2) (by decide) b.exponent
    positivity
  have hle : ∀ i j : ℕ, i * b.edgeScale k ≤ j * b.gridScale k ↔
      (i : ℚ) * 2 ^ b.exponent ≤ j * 10 ^ k := fun i j => by
    rw [← Nat.cast_le (α := ℚ), mul_gridScale_eq, mul_edgeScale_eq, mul_le_mul_iff_left₀ hpos]
  have hge : ∀ i j : ℕ, j * b.gridScale k ≤ i * b.edgeScale k ↔
      (j : ℚ) * 10 ^ k ≤ i * 2 ^ b.exponent := fun i j => by
    rw [← Nat.cast_le (α := ℚ), mul_gridScale_eq, mul_edgeScale_eq, mul_le_mul_iff_left₀ hpos]
  have hlt : ∀ i j : ℕ, i * b.edgeScale k < j * b.gridScale k ↔
      (i : ℚ) * 2 ^ b.exponent < j * 10 ^ k := fun i j => by
    rw [← not_le, ← not_le, hge]
  have hgt : ∀ i j : ℕ, j * b.gridScale k < i * b.edgeScale k ↔
      (j : ℚ) * 10 ^ k < i * 2 ^ b.exponent := fun i j => by
    rw [← not_le, ← not_le, hle]
  rw [holds] at h
  split at h
  · rename_i hclosed
    simp only [Bool.and_eq_true, decide_eq_true_eq, hle, hge] at h
    exact ⟨h.1, h.2, fun hopen => by rw [hopen] at hclosed; cases hclosed⟩
  · simp only [Bool.and_eq_true, decide_eq_true_eq, hlt, hgt] at h
    exact ⟨h.1.le, h.2.le, fun _ => h⟩

/-! ## The search -/

theorem holds_of_hit (h : b.hit tie k = some n) : b.holds k n = true := by
  rw [hit] at h
  split at h
  · rename_i hfirst hsecond
    obtain rfl := Option.some.inj h
    rcases roundQuotient_eq_or tie (b.mid * b.edgeScale k) (b.gridScale k) with heq | heq
    · rwa [heq]
    · rwa [heq]
  · obtain rfl := Option.some.inj h
    assumption
  · obtain rfl := Option.some.inj h
    assumption
  · cases h

/-- A grid that is as fine as the quarters has a hit. -/
theorem hit_of_fine (hlow : b.low < b.mid) (hhigh : b.mid < b.high)
    (hfine : b.gridScale k ≤ b.edgeScale k) : (b.hit tie k).isSome = true := by
  set n := b.mid * b.edgeScale k / b.gridScale k with hn
  have hbelow : n * b.gridScale k ≤ b.mid * b.edgeScale k := Nat.div_mul_le_self _ _
  have habove : b.mid * b.edgeScale k < n * b.gridScale k + b.gridScale k := by
    have := Nat.lt_div_mul_add (a := b.mid * b.edgeScale k) (b.gridScale_pos k)
    exact this
  have hedge := b.edgeScale_pos k
  have hlow' : b.low * b.edgeScale k + b.edgeScale k ≤ b.mid * b.edgeScale k := by
    rw [← Nat.succ_mul]
    exact Nat.mul_le_mul_right _ hlow
  have hhigh' : b.mid * b.edgeScale k < b.high * b.edgeScale k :=
    Nat.mul_lt_mul_of_pos_right hhigh hedge
  have hholds : b.holds k n = true := by
    rw [holds]
    split
    · simp only [Bool.and_eq_true, decide_eq_true_eq]
      omega
    · simp only [Bool.and_eq_true, decide_eq_true_eq]
      omega
  rw [hit]
  rw [← hn, hholds]
  split <;> first | rfl | (rename_i h _; cases h)

/-- The search ends with a hit if there is one on one of the grids. -/
theorem holds_search {fuel : ℕ} (h : ∃ j < fuel, (b.hit tie (k - j)).isSome = true) :
    b.holds (b.search tie fuel k).exponent (b.search tie fuel k).digits = true := by
  induction fuel generalizing k with
  | zero =>
    obtain ⟨j, hj, -⟩ := h
    omega
  | succ fuel ih =>
    rw [search]
    cases hhit : b.hit tie k with
    | some n => exact holds_of_hit hhit
    | none =>
      obtain ⟨j, hj, hsome⟩ := h
      have hpos : j ≠ 0 := by
        rintro rfl
        rw [Nat.cast_zero, sub_zero, hhit] at hsome
        cases hsome
      refine ih ⟨j - 1, by omega, ?_⟩
      rwa [show k - 1 - ((j - 1 : ℕ) : ℤ) = k - j by omega]

end Basin

/-! ## Doubles -/

/-- The size is that of a double that is not zero. -/
structure Magnitude.IsDouble (m : Magnitude) : Prop where
  mantissa_pos : 0 < m.mantissa
  mantissa_lt : m.mantissa < 2 ^ 53
  exponent_ge : -1074 ≤ m.exponent
  exponent_le : m.exponent ≤ 971
  normal : -1074 < m.exponent → 2 ^ 52 ≤ m.mantissa
  leansDown_iff : m.leansDown = true ↔ m.mantissa = 2 ^ 52 ∧ -1074 < m.exponent

set_option maxRecDepth 4000 in
/-- One of the last grids is as fine as the quarters, whatever the exponent. -/
theorem fine_grid : ∀ i : Fin 2046,
    powNum 10 (tenAbove ((i : ℕ) - 1074 + 54) - 23) * powDen 2 ((i : ℕ) - 1074 - 2) ≤
      powNum 2 ((i : ℕ) - 1074 - 2) * powDen 10 (tenAbove ((i : ℕ) - 1074 + 54) - 23) := by
  decide +kernel

/-- The fewest digits stand for a number in the basin of the double. -/
theorem holds_shortest (tie : Tie) {m : Magnitude} (hm : m.IsDouble) :
    m.basin.holds (shortest tie m).exponent (shortest tie m).digits = true := by
  obtain ⟨hpos, hlt, hge, hle, -, -⟩ := hm
  have hlog : m.mantissa.log2 ≤ 52 := by
    have := (Nat.log2_lt hpos.ne').2 hlt
    omega
  set top := tenAbove (m.exponent + m.mantissa.log2 + 2) with htop
  have hlow : tenAbove (m.exponent + 54) - 23 ≤ top := by
    simp only [htop, tenAbove]
    omega
  have hhigh : top ≤ tenAbove (m.exponent + 54) := by
    simp only [htop, tenAbove]
    omega
  refine Basin.holds_search ⟨(top - (tenAbove (m.exponent + 54) - 23)).toNat, by omega, ?_⟩
  have hk : top - ((top - (tenAbove (m.exponent + 54) - 23)).toNat : ℤ) =
      tenAbove (m.exponent + 54) - 23 := by
    omega
  rw [hk]
  have hfine := fine_grid ⟨(m.exponent + 1074).toNat, by omega⟩
  have hexponent : (((m.exponent + 1074).toNat : ℕ) : ℤ) - 1074 = m.exponent := by omega
  rw [hexponent] at hfine
  refine Basin.hit_of_fine ?_ ?_ hfine
  · show 4 * m.mantissa - (if m.leansDown then 1 else 2) < 4 * m.mantissa
    split <;> omega
  · show 4 * m.mantissa < 4 * m.mantissa + 2
    omega

theorem shortest_mem (tie : Tie) {m : Magnitude} (hm : m.IsDouble) :
    m.basin.Mem ((shortest tie m).digits * 10 ^ (shortest tie m).exponent) :=
  Basin.mem_of_holds (holds_shortest tie hm)

/-- There are digits. -/
theorem digits_shortest_pos (tie : Tie) {m : Magnitude} (hm : m.IsDouble) :
    0 < (shortest tie m).digits := by
  have hlow : 0 < m.basin.low := by
    have := hm.mantissa_pos
    show 0 < 4 * m.mantissa - (if m.leansDown then 1 else 2)
    split <;> omega
  have hmem := (shortest_mem tie hm).1
  rcases Nat.eq_zero_or_pos (shortest tie m).digits with hzero | hpos
  · rw [hzero, Nat.cast_zero, zero_mul] at hmem
    have hlow' : (0 : ℚ) < m.basin.low := by exact_mod_cast hlow
    exact absurd hmem (not_le.2 (mul_pos hlow' (Beat.two_zpow_pos _)))
  · exact hpos

/-! ## Rounding -/

/-- How far a number in the basin of a double may be from it, in units of its last place. -/
theorem bounds_of_mem {m : Magnitude} (hm : m.IsDouble) {q : ℚ}
    (hq : m.basin.Mem (q * 2 ^ m.exponent)) :
    m.mantissa - (if m.leansDown then 1 / 4 else 1 / 2) ≤ q ∧ q ≤ m.mantissa + 1 / 2 ∧
      (m.mantissa % 2 = 1 → |q - m.mantissa| < 1 / 2) := by
  have hquarter : (2 : ℚ) ^ m.exponent = 4 * 2 ^ m.basin.exponent := by
    show (2 : ℚ) ^ m.exponent = 2 ^ (2 : ℤ) * 2 ^ (m.exponent - 2)
    rw [← Beat.two_zpow_add, add_sub_cancel]
  have hpos := Beat.two_zpow_pos m.basin.exponent
  have hlow : (m.basin.low : ℚ) = 4 * (m.mantissa - (if m.leansDown then 1 / 4 else 1 / 2)) := by
    have hone := hm.mantissa_pos
    show ((4 * m.mantissa - (if m.leansDown then 1 else 2) : ℕ) : ℚ) = _
    split_ifs
    all_goals
      rw [Nat.cast_sub (by omega)]
      push_cast
      ring
  have hhigh : (m.basin.high : ℚ) = 4 * (m.mantissa + 1 / 2) := by
    show ((4 * m.mantissa + 2 : ℕ) : ℚ) = _
    push_cast
    ring
  obtain ⟨hle, hge, hopen⟩ := hq
  rw [hquarter, ← mul_assoc, mul_comm q] at hle hge hopen
  rw [mul_le_mul_iff_left₀ hpos, hlow] at hle
  rw [mul_le_mul_iff_left₀ hpos, hhigh] at hge
  rw [mul_lt_mul_iff_left₀ hpos, mul_lt_mul_iff_left₀ hpos, hlow, hhigh] at hopen
  refine ⟨by linarith, by linarith, fun hodd => ?_⟩
  have hlean : ¬m.leansDown = true := by
    rw [hm.leansDown_iff]
    omega
  have hclosed : m.basin.closed = false := by
    show (m.mantissa % 2 == 0) = false
    rw [hodd]
    rfl
  obtain ⟨hlt, hgt⟩ := hopen hclosed
  rw [if_neg hlean] at hlt
  rw [abs_lt]
  constructor <;> linarith

/-- Below a power of two the doubles are twice as dense, and what is within half of their distance
rounds to the power. -/
theorem nearest_below_power {q : ℚ} {e : ℤ} (he : -1074 < e) (hlow : 2 ^ 52 - 1 / 4 ≤ q)
    (hlt : q < 2 ^ 52) : Beat.nearest (q * 2 ^ e) = 2 ^ 52 * 2 ^ e := by
  have htwice : (2 : ℚ) ^ e = 2 * 2 ^ (e - 1) := by
    rw [← zpow_one_add₀ two_ne_zero, add_sub_cancel]
  have hround : Beat.roundEven (q * 2) = 2 ^ 53 := by
    refine Beat.roundEven_eq ?_ (by norm_num)
    push_cast
    rw [abs_le]
    constructor <;> linarith
  have hgrid : Beat.grid (q * 2 * 2 ^ (e - 1)) = e - 1 :=
    Beat.grid_mul_zpow (by linarith) (by linarith) (by omega) fun _ => by linarith
  rw [htwice, ← mul_assoc, Beat.nearest_of_grid_eq hgrid, hround]
  push_cast
  ring

/-- What is in the basin of a double rounds to it. -/
theorem nearest_of_mem {m : Magnitude} (hm : m.IsDouble) {y : ℚ} (hy : m.basin.Mem y) :
    Beat.nearest y = m.mantissa * 2 ^ m.exponent := by
  obtain ⟨q, rfl⟩ : ∃ q : ℚ, y = q * 2 ^ m.exponent :=
    ⟨y / 2 ^ m.exponent, (div_mul_cancel₀ _ (Beat.two_zpow_pos _).ne').symm⟩
  obtain ⟨hlow, hhigh, hodd⟩ := bounds_of_mem hm hy
  have hone : (1 : ℚ) ≤ m.mantissa := by exact_mod_cast hm.mantissa_pos
  have hlt : (m.mantissa : ℚ) + 1 ≤ 2 ^ 53 := by exact_mod_cast hm.mantissa_lt
  by_cases hbelow : -1074 < m.exponent ∧ q < 2 ^ 52
  · -- the mantissa is the least one, as the number is below all of its own length
    obtain ⟨hnormal, hq⟩ := hbelow
    have hpower : m.mantissa = 2 ^ 52 := by
      have hfull := hm.normal hnormal
      have hshort : (m.mantissa : ℚ) < 2 ^ 52 + 1 := by
        split_ifs at hlow <;> linarith
      have hshort' : m.mantissa < 2 ^ 52 + 1 := by exact_mod_cast hshort
      omega
    have hcast : (m.mantissa : ℚ) = 2 ^ 52 := by exact_mod_cast hpower
    rw [if_pos (hm.leansDown_iff.2 ⟨hpower, hnormal⟩), hcast] at hlow
    rw [nearest_below_power hnormal hlow hq, hcast]
  · have hfull : -1074 < m.exponent → 2 ^ 52 ≤ q := fun hnormal => by
      by_contra hq
      exact hbelow ⟨hnormal, not_le.1 hq⟩
    have hhalf : (m.mantissa : ℚ) - 1 / 2 ≤ q := by
      split_ifs at hlow <;> linarith
    have hround : Beat.roundEven q = m.mantissa := by
      refine Beat.roundEven_eq ?_ fun h => ?_
      · rw [Int.cast_natCast, abs_le]
        constructor <;> linarith
      · rw [Int.cast_natCast]
        exact hodd (by omega)
    have hgrid : Beat.grid (q * 2 ^ m.exponent) = m.exponent :=
      Beat.grid_mul_zpow (by linarith) (by linarith) hm.exponent_ge hfull
    rw [Beat.nearest_of_grid_eq hgrid, hround, Int.cast_natCast]

end Downbeat.Decimal
