import Downbeat.Proofs.Beat.Addition

/-!
# How far steps of one length get

A clock that moves on in steps of one length loses the step to rounding as soon as the
distance between the doubles around it is more than twice the step. It gets to the power of two
that is `2 ^ 53` times the step, rounded up (`Beat.horizon`) : below that each step moves it on
(`Beat.lt_nearest_add`), and no step takes it any further (`Beat.nearest_add_le_horizon`).
-/

namespace Downbeat.Beat

open Float.Model.UnpackedFloat

/-! ## Numbers -/

/-- How far steps of length `y` get from zero. -/
def horizon (y : ℚ) : ℚ := if 0 < y then 2 ^ (53 + Int.clog 2 y) else 0

theorem horizon_nonneg (y : ℚ) : 0 ≤ horizon y := by
  unfold horizon
  split_ifs
  · exact (two_zpow_pos _).le
  · exact le_rfl

/-- No positive double is below the least one. -/
theorem le_of_isDouble {x : ℚ} (h : IsDouble x) (hpos : 0 < x) : 2 ^ (-1074 : ℤ) ≤ x := by
  obtain ⟨m, e, -, he, rfl⟩ := h
  have hm : 1 ≤ m := by
    have := (mul_pos_iff_of_pos_right (two_zpow_pos e)).1 hpos
    exact_mod_cast this
  have hm' : (1 : ℚ) ≤ m := by exact_mod_cast hm
  calc (2 : ℚ) ^ (-1074 : ℤ) ≤ 2 ^ e := two_zpow_le.2 he
    _ ≤ m * 2 ^ e := le_mul_of_one_le_left (two_zpow_pos e).le hm'

/-- Doubles are whole multiples of the least one. -/
theorem exists_eq_mul_of_isDouble {x : ℚ} (h : IsDouble x) :
    ∃ n : ℤ, x = n * 2 ^ (-1074 : ℤ) := by
  obtain ⟨m, e, -, he, rfl⟩ := h
  refine ⟨m * 2 ^ (e + 1074).toNat, ?_⟩
  rw [Int.cast_mul, Int.cast_pow, Int.cast_ofNat, mul_assoc, ← zpow_natCast, ← two_zpow_add]
  congr 2
  omega

theorem neg_1074_le_clog {y : ℚ} (hy : IsDouble y) (hpos : 0 < y) : -1074 ≤ Int.clog 2 y := by
  have hle : y ≤ ((2 : ℕ) : ℚ) ^ Int.clog 2 y := Int.self_le_zpow_clog Nat.one_lt_two y
  rw [Nat.cast_ofNat] at hle
  exact two_zpow_le.1 ((le_of_isDouble hy hpos).trans hle)

/-- Below the horizon, a step moves on. -/
theorem lt_nearest_add {x y : ℚ} (hx : IsDouble x) (hnonneg : 0 ≤ x) (hy : IsDouble y)
    (h : x < horizon y) : x < nearest (x + y) := by
  have hpos : 0 < y := by
    by_contra hy'
    rw [horizon, if_neg hy'] at h
    exact absurd hnonneg h.not_ge
  rw [horizon, if_pos hpos] at h
  refine lt_of_le_of_ne (le_nearest hx (le_add_of_nonneg_right hpos.le)) fun heq => ?_
  -- what is lost is more than half the step, so the doubles are too far apart for the horizon
  have hlost : y ≤ 2 ^ (grid (x + y) - 1) := by
    have hloss := abs_nearest_sub_le (x + y)
    rwa [← heq, sub_add_cancel_left, abs_neg, abs_of_pos hpos, div_eq_mul_inv,
      ← zpow_sub_one₀ two_ne_zero] at hloss
  have hstep : (2 : ℚ) ^ (Int.clog 2 y - 1) < y := by
    have := Int.zpow_pred_clog_lt_self (R := ℚ) Nat.one_lt_two hpos
    rwa [Nat.cast_ofNat] at this
  have hgrid : Int.clog 2 y < grid (x + y) := by
    have := (zpow_lt_zpow_iff_right₀ (one_lt_two (α := ℚ))).1 (hstep.trans_le hlost)
    omega
  have hmin := neg_1074_le_clog hy hpos
  have hsum : 0 < x + y := add_pos_of_nonneg_of_pos hnonneg hpos
  have hfar : (2 : ℚ) ^ (53 + Int.clog 2 y) ≤ x + y := by
    have := le_abs_of_grid hsum.ne' (by omega)
    rw [abs_of_pos hsum] at this
    exact (two_zpow_le.2 (by omega)).trans this
  have hle := le_nearest (isDouble_two_zpow (by omega)) hfar
  rw [← heq] at hle
  exact absurd h hle.not_gt

theorem roundEven_half_above : roundEven (2 ^ 52 + 1 / 2) = 2 ^ 52 := by
  have hfloor : ⌊(2 ^ 52 + 1 / 2 : ℚ)⌋ = 2 ^ 52 := by
    rw [Int.floor_eq_iff]
    norm_num
  rw [roundEven, hfloor]
  norm_num

/-- At the horizon, half the distance to the next double goes to the even one, which is the
horizon. -/
theorem nearest_horizon {k : ℤ} (hk : -1074 ≤ k) :
    nearest (2 ^ (53 + k) + 2 ^ k) = (2 : ℚ) ^ (53 + k) := by
  have hpos : (0 : ℚ) < 2 ^ (53 + k) + 2 ^ k := add_pos (two_zpow_pos _) (two_zpow_pos _)
  have hlog : Int.log 2 ((2 : ℚ) ^ (53 + k) + 2 ^ k) = 53 + k := by
    have hlow : ((2 : ℕ) : ℚ) ^ (53 + k) ≤ 2 ^ (53 + k) + 2 ^ k := by
      rw [Nat.cast_ofNat]
      exact le_add_of_nonneg_right (two_zpow_pos k).le
    have hhigh : (2 : ℚ) ^ (53 + k) + 2 ^ k < ((2 : ℕ) : ℚ) ^ (53 + k + 1) := by
      rw [Nat.cast_ofNat, zpow_add_one₀ two_ne_zero, mul_two]
      exact add_lt_add_right ((zpow_lt_zpow_iff_right₀ one_lt_two).2 (by omega)) _
    have h₁ := (Int.zpow_le_iff_le_log Nat.one_lt_two hpos).1 hlow
    have h₂ := (Int.lt_zpow_iff_log_lt Nat.one_lt_two hpos).1 hhigh
    omega
  have hgrid : grid ((2 : ℚ) ^ (53 + k) + 2 ^ k) = k + 1 := by
    rw [grid, abs_of_pos hpos, hlog]
    omega
  have hdiv : ((2 : ℚ) ^ (53 + k) + 2 ^ k) / 2 ^ (k + 1) = 2 ^ 52 + 1 / 2 := by
    have hne := (two_zpow_pos k).ne'
    rw [two_zpow_add, two_zpow_add]
    field_simp
  rw [nearest, hgrid, hdiv, roundEven_half_above]
  calc ((2 ^ 52 : ℤ) : ℚ) * 2 ^ (k + 1) = 2 ^ (52 : ℤ) * 2 ^ (k + 1) := by norm_cast
    _ = 2 ^ (52 + (k + 1)) := (two_zpow_add _ _).symm
    _ = 2 ^ (53 + k) := by
      congr 1
      omega

/-- No step leads beyond the horizon. -/
theorem nearest_add_le_horizon {x y : ℚ} (hy : IsDouble y) (hnonneg : 0 ≤ y)
    (h : x ≤ horizon y) : nearest (x + y) ≤ horizon y := by
  rcases hnonneg.lt_or_eq with hpos | rfl
  · rw [horizon, if_pos hpos] at h ⊢
    have hle : y ≤ (2 : ℚ) ^ Int.clog 2 y := by
      have := Int.self_le_zpow_clog (R := ℚ) Nat.one_lt_two y
      rwa [Nat.cast_ofNat] at this
    exact (nearest_mono (add_le_add h hle)).trans (nearest_horizon (neg_1074_le_clog hy hpos)).le
  · rw [horizon, if_neg (lt_irrefl 0)] at h ⊢
    rw [add_zero]
    exact nearest_zero ▸ nearest_mono h

/-- Doubles in order are at least the least one apart. -/
theorem add_le_of_lt {x y : ℚ} (hx : IsDouble x) (hy : IsDouble y) (h : x < y) :
    x + 2 ^ (-1074 : ℤ) ≤ y := by
  obtain ⟨m, rfl⟩ := exists_eq_mul_of_isDouble hx
  obtain ⟨n, rfl⟩ := exists_eq_mul_of_isDouble hy
  have hmn : m + 1 ≤ n := by
    have := (mul_lt_mul_iff_left₀ (two_zpow_pos (-1074))).1 h
    exact_mod_cast this
  have hmn' : (m : ℚ) + 1 ≤ n := by exact_mod_cast hmn
  calc (m : ℚ) * 2 ^ (-1074 : ℤ) + 2 ^ (-1074 : ℤ) = (m + 1) * 2 ^ (-1074 : ℤ) := by ring
    _ ≤ n * 2 ^ (-1074 : ℤ) := mul_le_mul_of_nonneg_right hmn' (two_zpow_pos _).le

/-! ## Beats -/

theorem place_zero : place 0 = ((0 : WithTop ℚ) : WithBot (WithTop ℚ)) := by
  have hunpack : (0 : Beat).toModel.unpack = .zero .positive := by rfl
  rw [place, hunpack]
  rfl

theorem value_zero : value 0 = 0 := by
  have hunpack : (0 : Beat).toModel.unpack = .zero .positive := by rfl
  rw [value, hunpack]
  rfl

theorem isFinite_zero : (0 : Beat).isFinite = true := by decide

theorem zero_le_iff_value {b : Beat} (hb : b.isFinite = true) : 0 ≤ b ↔ 0 ≤ value b := by
  rw [le_iff_value isFinite_zero hb, value_zero]

/-- A beat that is not below zero is finite, or at the upper end of the line. -/
theorem isFinite_or_unpack_eq_of_zero_le {b : Beat} (h : 0 ≤ b) :
    b.isFinite = true ∨ b.toModel.unpack = .infinity .positive := by
  obtain ⟨-, hnan, hle⟩ := le_iff.1 h
  rcases isFinite_or_unpack_eq hnan with hfin | ⟨s, hs⟩
  · exact .inl hfin
  · cases s
    · rw [place_zero, place, hs] at hle
      exact absurd hle (WithBot.bot_lt_coe _).not_ge
    · exact .inr hs

protected theorem le_of_lt {a b : Beat} (h : a < b) : a ≤ b := by
  obtain ⟨ha, hb, hlt⟩ := lt_iff.1 h
  exact le_iff.2 ⟨ha, hb, hlt.le⟩

theorem isFinite_of_lt {a b : Beat} (ha : 0 ≤ a) (h : a < b) : a.isFinite = true := by
  rcases isFinite_or_unpack_eq_of_zero_le ha with hfin | hinf
  · exact hfin
  · obtain ⟨-, -, hlt⟩ := lt_iff.1 h
    have htop : place a = ((⊤ : WithTop ℚ) : WithBot (WithTop ℚ)) := by rw [place, hinf, rank]
    rw [htop] at hlt
    cases hb : place b with
    | bot =>
      rw [hb] at hlt
      exact absurd hlt (WithBot.bot_lt_coe _).not_gt
    | coe x =>
      rw [hb] at hlt
      exact absurd (WithBot.coe_lt_coe.1 hlt) le_top.not_gt

/-- How far steps of a length that is not below zero get. -/
def ceiling (d : Beat) : WithTop ℚ := if d.isFinite then horizon (value d) else ⊤

theorem ceiling_of_isFinite {d : Beat} (hd : d.isFinite = true) :
    ceiling d = (horizon (value d) : WithTop ℚ) := if_pos hd

theorem ceiling_nonneg (d : Beat) : 0 ≤ ceiling d := by
  unfold ceiling
  split_ifs
  · exact_mod_cast horizon_nonneg _
  · exact le_top

theorem add_infinity {u : Float.Model.UnpackedFloat} (hu : u.isFinite = true) (s : Sign) :
    add .binary64 u (.infinity s) = .infinity s := by
  cases u with
  | notANumber => cases hu
  | infinity t => cases hu
  | _ => rfl

theorem unpack_add_of_infinity {a b : Beat} {s : Sign} (ha : a.isFinite = true)
    (hb : b.toModel.unpack = .infinity s) : (a + b).toModel.unpack = .infinity s := by
  show (Float.Model.pack (add .binary64 a.toModel.unpack b.toModel.unpack)).unpack = _
  rw [hb, add_infinity ha]
  exact unpack_pack trivial

/-- The sum of a finite beat and a number is a number. -/
theorem isNaN_add {a b : Beat} (ha : a.isFinite = true) (hb : b.isNaN = false) :
    (a + b).isNaN = false := by
  rcases isFinite_or_unpack_eq hb with hfin | ⟨s, hs⟩
  · exact (place_add ha hfin).1
  · show (a + b).toModel.unpack.isNaN = false
    rw [unpack_add_of_infinity ha hs]
    rfl

theorem le_inf {b : Beat} (hb : b.isNaN = false) : b ≤ 1 / 0 := by
  refine le_iff.2 ⟨hb, by decide, ?_⟩
  rw [place_inf]
  cases place b with
  | bot => exact bot_le
  | coe x => exact WithBot.coe_le_coe.2 le_top

/-- Below the ceiling, a step moves on. -/
theorem lt_add_of_lt_ceiling {b d : Beat} (hfin : b.isFinite = true) (hb : 0 ≤ b) (hd : 0 ≤ d)
    (h : (value b : WithTop ℚ) < ceiling d) : b < b + d := by
  have hnan := isNaN_of_isFinite hfin
  rcases isFinite_or_unpack_eq_of_zero_le hd with hdfin | hinf
  · rw [ceiling_of_isFinite hdfin] at h
    obtain ⟨hsum, hplace⟩ := place_add hfin hdfin
    have hmove : value b < nearest (value b + value d) :=
      lt_nearest_add (isDouble_value b) ((zero_le_iff_value hfin).1 hb) (isDouble_value d)
        (by exact_mod_cast h)
    refine lt_iff.2 ⟨hnan, hsum, ?_⟩
    rw [place_of_isFinite hfin, ← inRange_of_abs_lt (abs_value_lt b), hplace]
    exact inRange_lt (abs_value_lt b) hmove
  · have hsum := unpack_add_of_infinity hfin hinf
    have hplace : place (b + d) = ((⊤ : WithTop ℚ) : WithBot (WithTop ℚ)) := by
      rw [place, hsum, rank]
    refine lt_iff.2 ⟨hnan, isNaN_add hfin (le_iff.1 hd).2.1, ?_⟩
    rw [hplace, place_of_isFinite hfin]
    exact WithBot.coe_lt_coe.2 (WithTop.coe_lt_top _)

/-- No step leads beyond the ceiling, if it is in range. -/
theorem value_add_le {b d : Beat} (hfin : b.isFinite = true) (hb : 0 ≤ b)
    (hdfin : d.isFinite = true) (hd : 0 ≤ d) (hrange : horizon (value d) < 2 ^ (1024 : ℤ))
    (h : value b ≤ horizon (value d)) :
    (b + d).isFinite = true ∧ 0 ≤ b + d ∧ value (b + d) ≤ horizon (value d) := by
  have hb' := (zero_le_iff_value hfin).1 hb
  have hd' := (zero_le_iff_value hdfin).1 hd
  have hnonneg : 0 ≤ nearest (value b + value d) := nearest_nonneg (add_nonneg hb' hd')
  have hle := nearest_add_le_horizon (isDouble_value d) hd' h
  obtain ⟨hsum, hvalue⟩ :=
    value_add hfin hdfin (by rw [abs_of_nonneg hnonneg]; exact hle.trans_lt hrange)
  rw [zero_le_iff_value hsum, hvalue]
  exact ⟨hsum, hnonneg, hle⟩

end Downbeat.Beat
