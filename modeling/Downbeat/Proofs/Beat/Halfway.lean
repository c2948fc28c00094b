import Downbeat.Proofs.Beat.Exact
import Downbeat.Proofs.Decimal.Shortest

/-!
# Going to a beat by the way that is left

To go from a beat to a later one, the way that is left is rounded, and then the sum is. The two
roundings make up for each other (`Beat.nearest_add_nearest_sub`) unless the way that is left has as
many digits as the goal, and it ends halfway between two doubles (`Beat.IsHalfway`). Then the sum is
halfway between two doubles as well, and goes to the even one. This is the goal if its last digit
is even; otherwise the goal is missed by one unit of its last place
(`Beat.nearest_add_nearest_sub_of_isHalfway`).
-/

namespace Downbeat.Beat

/-! ## Numbers -/

theorem roundEven_add_half (n : ℤ) : roundEven (n + 1 / 2) = n + n % 2 := by
  have hfloor : ⌊(n + 1 / 2 : ℚ)⌋ = n := by
    rw [Int.floor_eq_iff]
    constructor <;> linarith
  rw [roundEven, hfloor, if_neg (by linarith), if_neg (by linarith)]

/-- Only what is halfway between two whole numbers is rounded by one half. -/
theorem eq_add_half_of_le {q : ℚ} (h : 1 / 2 ≤ |(roundEven q : ℚ) - q|) : q = ⌊q⌋ + 1 / 2 := by
  have hlow := Int.floor_le q
  have hhigh := Int.lt_floor_add_one q
  unfold roundEven at h
  split_ifs at h with hbelow habove
  · rw [abs_sub_comm, abs_of_nonneg (by linarith)] at h
    linarith
  · push_cast at h
    rw [abs_of_nonneg (by linarith)] at h
    linarith
  · linarith

/-- A double is a multiple of the distance between the doubles around it. -/
theorem exists_eq_mul_grid {y : ℚ} (hy : IsDouble y) : ∃ m : ℤ, y = m * 2 ^ grid y :=
  ⟨_, (nearest_of_isDouble hy).symm⟩

theorem mantissa_bounds {y : ℚ} {m : ℤ} (hpos : 0 < y) (hm : y = m * 2 ^ grid y) :
    0 < m ∧ m < 2 ^ 53 ∧ (-1074 < grid y → 2 ^ 52 ≤ m) := by
  have hunit := two_zpow_pos (grid y)
  refine ⟨?_, ?_, fun hnormal => ?_⟩
  · rw [hm] at hpos
    exact_mod_cast pos_of_mul_pos_left hpos hunit.le
  · have h := abs_lt_of_grid y
    rw [abs_of_pos hpos, two_zpow_add] at h
    nth_rewrite 1 [hm] at h
    exact_mod_cast lt_of_mul_lt_mul_right h hunit.le
  · have h := le_abs_of_grid hpos.ne' hnormal
    rw [abs_of_pos hpos, two_zpow_add] at h
    nth_rewrite 2 [hm] at h
    exact_mod_cast le_of_mul_le_mul_right h hunit

/-- What is within half a unit of the last place of a double rounds to it, if the double is even; a
quarter is enough below a power of two. -/
theorem nearest_of_near {m : ℤ} {δ : ℚ} {e : ℤ} (he : -1074 ≤ e) (hpos : 0 < m) (hlt : m < 2 ^ 53)
    (hfull : -1074 < e → 2 ^ 52 ≤ m) (hδ : |δ| ≤ 1 / 2) (hodd : m % 2 = 1 → |δ| < 1 / 2)
    (hpower : (m + δ : ℚ) < 2 ^ 52 → -1074 < e → |δ| ≤ 1 / 4) :
    nearest ((m + δ) * 2 ^ e) = m * 2 ^ e := by
  obtain ⟨hlow, hhigh⟩ := abs_le.1 hδ
  have hone : (1 : ℚ) ≤ m := by exact_mod_cast hpos
  have hlt' : (m : ℚ) + 1 ≤ 2 ^ 53 := by exact_mod_cast hlt
  by_cases hbelow : -1074 < e ∧ (m + δ : ℚ) < 2 ^ 52
  · obtain ⟨hnormal, hbelow⟩ := hbelow
    obtain ⟨hquarter, -⟩ := abs_le.1 (hpower hbelow hnormal)
    have hfull' : (2 ^ 52 : ℚ) ≤ m := by exact_mod_cast hfull hnormal
    have hm : m = 2 ^ 52 := by
      have hle : (m : ℚ) < ((2 ^ 52 + 1 : ℤ) : ℚ) := by
        push_cast
        linarith
      have := Int.cast_lt.1 hle
      have := hfull hnormal
      omega
    rw [Decimal.nearest_below_power hnormal (by linarith) hbelow, hm]
    push_cast
    rfl
  · have hgrid : grid ((m + δ) * 2 ^ e) = e := by
      refine grid_mul_zpow (by linarith) (by linarith) he fun hnormal => ?_
      exact not_lt.1 fun h => hbelow ⟨hnormal, h⟩
    rw [nearest_of_grid_eq hgrid, roundEven_eq (by rwa [add_sub_cancel_left])]
    rwa [add_sub_cancel_left]

/-- The goal `y` is out of reach from `x` : the way that is left has as many digits as the goal, it
ends halfway between two doubles, and the last digit of the goal is odd. -/
structure IsHalfway (x y : ℚ) (n : ℤ) : Prop where
  far : 2 ^ (52 + grid y) ≤ y - x
  half : x = (n + 1 / 2) * 2 ^ grid y
  odd : ∃ m : ℤ, y = (2 * m + 1) * 2 ^ grid y

/-- What is in the middle between two doubles goes to the even one. -/
theorem nearest_add_half {p e : ℤ} (hlow : (2 : ℚ) ^ 52 ≤ p + 1 / 2) (hhigh : (p + 1 : ℚ) ≤ 2 ^ 53)
    (he : -1074 ≤ e) : nearest ((p + 1 / 2) * 2 ^ e) = ((p + p % 2 : ℤ) : ℚ) * 2 ^ e := by
  have hgrid : grid (((p : ℚ) + 1 / 2) * 2 ^ e) = e :=
    grid_mul_zpow (by linarith) (by linarith) he fun _ => hlow
  rw [nearest_of_grid_eq hgrid, roundEven_add_half]

/-- What has fewer digits than `y` is rounded by no more than a quarter of a unit of `y`. -/
theorem abs_nearest_sub_le_of_grid_lt {y z : ℚ} (h : grid z < grid y) :
    |nearest z - z| ≤ 1 / 4 * 2 ^ grid y := by
  have hhalf : (2 : ℚ) ^ grid z * 2 ≤ 2 ^ grid y := by
    rw [← zpow_add_one₀ two_ne_zero]
    exact two_zpow_le.2 h
  linarith [abs_nearest_sub_le z]

section

variable {x y : ℚ} (hx : IsDouble x) (hy : IsDouble y)
include hx hy

/-- A way of `q` units of an odd goal that is rounded by half a unit is halfway. -/
theorem isHalfway_of_le {m : ℤ} {q : ℚ} (hlt : x < y) (hm : y = m * 2 ^ grid y)
    (hway : y - x = q * 2 ^ grid y) (hsame : grid (y - x) = grid y) (hodd : m % 2 = 1)
    (hbad : 1 / 2 ≤ |(roundEven q : ℚ) - q|) : IsHalfway x y (m - ⌊q⌋ - 1) := by
  have hunit := two_zpow_pos (grid y)
  have hzpos : 0 < y - x := sub_pos.2 hlt
  rcases (neg_1074_le_grid y).lt_or_eq with hnormal | hleast
  · refine ⟨?_, ?_, m / 2, ?_⟩
    · rw [← hsame] at hnormal ⊢
      exact (le_abs_of_grid hzpos.ne' hnormal).trans_eq (abs_of_pos hzpos)
    · calc x = y - (y - x) := (sub_sub_cancel y x).symm
        _ = (m - q) * 2 ^ grid y := by rw [sub_mul, ← hm, ← hway]
        _ = (((m - ⌊q⌋ - 1 : ℤ) : ℚ) + 1 / 2) * 2 ^ grid y := by
          nth_rewrite 1 [eq_add_half_of_le hbad]
          push_cast
          ring
    · have hm' : 2 * (m / 2) + 1 = m := by omega
      have hcast : (2 * ((m / 2 : ℤ) : ℚ) + 1) = m := by exact_mod_cast hm'
      rw [hcast]
      exact hm
  · -- the least double goes into the way without a rest, and it is not rounded
    obtain ⟨k, hk⟩ := exists_eq_mul_of_isDouble hy
    obtain ⟨l, hl⟩ := exists_eq_mul_of_isDouble hx
    have hwhole : q = ((k - l : ℤ) : ℚ) := by
      rw [hleast] at hk hl
      refine mul_right_cancel₀ hunit.ne' ?_
      rw [← hway, Int.cast_sub, sub_mul, ← hk, ← hl]
    rw [hwhole, roundEven_intCast, sub_self, abs_zero] at hbad
    linarith

/-- The roundings of the way and of the sum make up for each other unless the goal is halfway. -/
theorem nearest_add_nearest_sub (hnonneg : 0 ≤ x) (hle : x ≤ y) (h : ∀ n, ¬IsHalfway x y n) :
    nearest (x + nearest (y - x)) = y := by
  rcases hle.eq_or_lt with rfl | hlt
  · rw [sub_self, nearest_zero, add_zero, nearest_of_isDouble hx]
  have hypos : 0 < y := hnonneg.trans_lt hlt
  have hzpos : 0 < y - x := sub_pos.2 hlt
  obtain ⟨m, hm⟩ := exists_eq_mul_grid hy
  obtain ⟨hmpos, hmlt, hmfull⟩ := mantissa_bounds hypos hm
  have hunit := two_zpow_pos (grid y)
  -- the sum is off by what the way is rounded by
  obtain ⟨δ, hδ⟩ : ∃ δ : ℚ, nearest (y - x) - (y - x) = δ * 2 ^ grid y :=
    ⟨_, (div_mul_cancel₀ _ hunit.ne').symm⟩
  have hsum : x + nearest (y - x) = (m + δ) * 2 ^ grid y := by
    rw [add_mul, ← hm, ← hδ]
    ring
  have hgrid : grid (y - x) ≤ grid y := by
    refine grid_mono (abs_pos.2 hzpos.ne') ?_
    rw [abs_of_pos hzpos, abs_of_pos hypos]
    exact sub_le_self y hnonneg
  suffices hnear : |δ| ≤ 1 / 2 ∧ (m % 2 = 1 → |δ| < 1 / 2) ∧
      ((m + δ : ℚ) < 2 ^ 52 → -1074 < grid y → |δ| ≤ 1 / 4) by
    rw [hsum, nearest_of_near (neg_1074_le_grid y) hmpos hmlt hmfull hnear.1 hnear.2.1 hnear.2.2,
      ← hm]
  rcases hgrid.lt_or_eq with hshort | hsame
  · -- the way is rounded to a fraction of a unit
    have hquarter : |δ| ≤ 1 / 4 := by
      have herror := abs_nearest_sub_le_of_grid_lt hshort
      rw [hδ, abs_mul, abs_of_pos hunit] at herror
      exact le_of_mul_le_mul_right herror hunit
    exact ⟨by linarith, fun _ => by linarith, fun _ _ => hquarter⟩
  · -- the way is rounded to a unit
    obtain ⟨q, hway⟩ : ∃ q : ℚ, y - x = q * 2 ^ grid y := ⟨_, (div_mul_cancel₀ _ hunit.ne').symm⟩
    have hround : nearest (y - x) = roundEven q * 2 ^ grid y := by
      rw [hway] at hsame ⊢
      exact nearest_of_grid_eq hsame
    have hδq : δ = roundEven q - q := by
      refine mul_right_cancel₀ hunit.ne' ?_
      rw [← hδ, hround, hway, sub_mul]
    rw [hδq]
    refine ⟨abs_roundEven_sub_le q, fun hodd => ?_, fun hbelow hnormal => ?_⟩
    · exact not_le.1 fun hbad => h _ (isHalfway_of_le hx hy hlt hm hway hsame hodd hbad)
    · -- the sum has no fewer digits than the way
      have hfull : ((2 ^ 52 : ℤ) : ℚ) ≤ q := by
        rw [← hsame] at hnormal
        have hlow := le_abs_of_grid hzpos.ne' hnormal
        rw [hsame, two_zpow_add, abs_of_pos hzpos, hway] at hlow
        exact_mod_cast le_of_mul_le_mul_right hlow hunit
      have hround : (2 ^ 52 : ℚ) ≤ roundEven q := by exact_mod_cast le_roundEven hfull
      have hqm : q ≤ m := by
        refine le_of_mul_le_mul_right ?_ hunit
        rw [← hway, ← hm]
        exact sub_le_self y hnonneg
      linarith

end

/-- Halfway the goal is missed by a unit : it is not reached if `n` is even, and passed if `n` is
odd. -/
theorem nearest_add_nearest_sub_of_isHalfway {x y : ℚ} {n : ℤ} (hnonneg : 0 ≤ x)
    (h : IsHalfway x y n) :
    nearest (x + nearest (y - x)) = y + (2 * (n % 2 : ℤ) - 1) * 2 ^ grid y := by
  obtain ⟨hfar, hx, m, hm⟩ := h
  have hunit := two_zpow_pos (grid y)
  have hypos : 0 < y := by
    have := two_zpow_pos (52 + grid y)
    linarith
  have hm' : y = ((2 * m + 1 : ℤ) : ℚ) * 2 ^ grid y := by
    push_cast
    exact hm
  obtain ⟨-, hmlt, -⟩ := mantissa_bounds hypos hm'
  have hmlt' : (2 * m + 2 : ℚ) ≤ 2 ^ 53 := by
    have hle : 2 * m + 2 ≤ 2 ^ 53 := by omega
    exact_mod_cast hle
  have hn : (0 : ℚ) ≤ n := by
    rw [hx] at hnonneg
    have hhalf : (0 : ℚ) ≤ n + 1 / 2 := nonneg_of_mul_nonneg_left hnonneg hunit
    have hlt : (-1 : ℚ) < n := by linarith
    have : -1 < n := by exact_mod_cast hlt
    exact_mod_cast (by omega : 0 ≤ n)
  have hbit : (0 : ℚ) ≤ (n % 2 : ℤ) ∧ ((n % 2 : ℤ) : ℚ) ≤ 1 := by
    rcases Int.emod_two_eq_zero_or_one n with hbit | hbit <;> rw [hbit] <;> norm_num
  -- the way that is left, in units, and what it is rounded to
  have hway : y - x = (((2 * m - n : ℤ) : ℚ) + 1 / 2) * 2 ^ grid y := by
    nth_rewrite 1 [hm, hx]
    push_cast
    ring
  have hfull : (2 ^ 52 : ℚ) ≤ ((2 * m - n : ℤ) : ℚ) + 1 / 2 := by
    rw [hway, two_zpow_add] at hfar
    exact_mod_cast le_of_mul_le_mul_right hfar hunit
  have hround : nearest (y - x) = ((2 * m - n + n % 2 : ℤ) : ℚ) * 2 ^ grid y := by
    have hparity : (2 * m - n) % 2 = n % 2 := by omega
    rw [hway, nearest_add_half hfull (by push_cast; linarith) (neg_1074_le_grid y), hparity]
  -- the sum is halfway between two doubles
  have hsum : x + nearest (y - x) = (((2 * m + n % 2 : ℤ) : ℚ) + 1 / 2) * 2 ^ grid y := by
    rw [hround]
    nth_rewrite 1 [hx]
    push_cast
    ring
  have hparity : (2 * m + n % 2) % 2 = n % 2 := by omega
  push_cast at hfull
  rw [hsum, nearest_add_half (by push_cast; linarith) (by push_cast; linarith)
    (neg_1074_le_grid y), hparity]
  nth_rewrite 2 [hm]
  push_cast
  ring

/-! ## Beats -/

open Float.Model.UnpackedFloat in
theorem beq_iff {a b : Beat} :
    (a == b) = true ↔ a.isNaN = false ∧ b.isNaN = false ∧ place a = place b := by
  have hdef : (a == b) = true ↔ a.toModel.unpack.compare b.toModel.unpack = some .eq := by
    show (a.toModel.unpack.compare b.toModel.unpack == some .eq) = true ↔ _
    simp
  rw [hdef]
  cases ha : a.isNaN with
  | true =>
    rw [compare_eq_none (.inl ha)]
    simp
  | false =>
    cases hb : b.isNaN with
    | true =>
      rw [compare_eq_none (.inr hb)]
      simp
    | false =>
      rw [compare_rank (isCanonical_unpack a) (isCanonical_unpack b) ha hb, Option.some_inj,
        compare_eq_iff_eq]
      simp [place]

theorem beq_iff_le_and_le {a b : Beat} : (a == b) = true ↔ a ≤ b ∧ b ≤ a := by
  rw [beq_iff, le_iff, le_iff]
  constructor
  · rintro ⟨ha, hb, hplace⟩
    exact ⟨⟨ha, hb, hplace.le⟩, hb, ha, hplace.ge⟩
  · rintro ⟨⟨ha, hb, hle⟩, -, -, hge⟩
    exact ⟨ha, hb, le_antisymm hle hge⟩

theorem isFinite_of_le {a b : Beat} (ha : 0 ≤ a) (hb : b.isFinite = true) (h : a ≤ b) :
    a.isFinite = true := by
  rcases isFinite_or_unpack_eq_of_zero_le ha with hfin | hinf
  · exact hfin
  · obtain ⟨-, -, hle⟩ := le_iff.1 h
    have htop : place a = ((⊤ : WithTop ℚ) : WithBot (WithTop ℚ)) := by rw [place, hinf, rank]
    rw [htop, place_of_isFinite hb, WithBot.coe_le_coe, top_le_iff] at hle
    exact absurd hle (WithTop.coe_ne_top)

section

variable {a b : Beat} (ha : 0 ≤ a) (hb : b.isFinite = true) (hle : a ≤ b)
include ha hb hle

/-- Going to a later beat by the way that is left rounds twice. -/
theorem place_add_forward_sub : (a + Clock.forward (b - a)).isNaN = false ∧
    place (a + Clock.forward (b - a)) =
      inRange (nearest (value a + nearest (value b - value a))) := by
  have hfin := isFinite_of_le ha hb hle
  have hnonneg := (zero_le_iff_value hfin).1 ha
  rw [le_iff_value hfin hb] at hle
  have hsum : value b + value (-a) = value b - value a := by
    rw [value_neg]
    ring
  have hway : 0 ≤ nearest (value b - value a) := nearest_nonneg (sub_nonneg.2 hle)
  have hrange : |nearest (value b + value (-a))| < 2 ^ (1024 : ℤ) := by
    rw [hsum, abs_of_nonneg hway]
    calc nearest (value b - value a) ≤ nearest (value b) := nearest_mono (sub_le_self _ hnonneg)
      _ = value b := nearest_of_isDouble (isDouble_value b)
      _ ≤ |value b| := le_abs_self _
      _ < 2 ^ (1024 : ℤ) := abs_value_lt b
  obtain ⟨hfin', hvalue⟩ := value_add hb (isFinite_neg.trans hfin) hrange
  rw [← sub_eq_add_neg, hsum] at hvalue
  rw [← sub_eq_add_neg] at hfin'
  have hforward : (Clock.forward (b - a)).isFinite = true ∧
      value (Clock.forward (b - a)) = nearest (value b - value a) := by
    unfold Clock.forward
    split_ifs with hpos
    · exact ⟨hfin', hvalue⟩
    · rw [lt_iff_value isFinite_zero hfin', value_zero, hvalue, not_lt] at hpos
      exact ⟨isFinite_zero, value_zero.trans (hway.antisymm hpos)⟩
  have hplace := place_add hfin hforward.1
  rwa [hforward.2] at hplace

/-- Halfway it falls short of the beat, or gets beyond it, by a unit of its last place. -/
theorem place_of_isHalfway {n : ℤ} (h : IsHalfway (value a) (value b) n) :
    place (a + Clock.forward (b - a)) =
      inRange (value b + (2 * (n % 2 : ℤ) - 1) * 2 ^ grid (value b)) := by
  have hfin := isFinite_of_le ha hb hle
  rw [(place_add_forward_sub ha hb hle).2,
    nearest_add_nearest_sub_of_isHalfway ((zero_le_iff_value hfin).1 ha) h]

theorem place_lt_of_isHalfway {n : ℤ} (h : IsHalfway (value a) (value b) n) (hn : n % 2 = 0) :
    place (a + Clock.forward (b - a)) < place b := by
  have hnonneg := (zero_le_iff_value (isFinite_of_le ha hb hle)).1 ha
  have hunit := two_zpow_pos (grid (value b))
  have hle' : (2 : ℚ) ^ grid (value b) ≤ value b := by
    have hfar := h.far
    have := two_zpow_le.2 (show grid (value b) ≤ 52 + grid (value b) by omega)
    linarith
  have hrange := abs_lt.1 (abs_value_lt b)
  have hshort : value b + (2 * ((n % 2 : ℤ) : ℚ) - 1) * 2 ^ grid (value b) =
      value b - 2 ^ grid (value b) := by
    rw [hn]
    push_cast
    ring
  rw [place_of_isHalfway ha hb hle h, hshort, place_of_isFinite hb,
    ← inRange_of_abs_lt (abs_value_lt b)]
  refine inRange_lt (abs_lt.2 ?_) (by linarith)
  exact ⟨(neg_lt_zero.2 (two_zpow_pos _)).trans_le (by linarith), by linarith⟩

theorem lt_place_of_isHalfway {n : ℤ} (h : IsHalfway (value a) (value b) n) (hn : n % 2 = 1) :
    place b < place (a + Clock.forward (b - a)) := by
  have hunit := two_zpow_pos (grid (value b))
  have hbeyond : value b + (2 * ((n % 2 : ℤ) : ℚ) - 1) * 2 ^ grid (value b) =
      value b + 2 ^ grid (value b) := by
    rw [hn]
    push_cast
    ring
  rw [place_of_isHalfway ha hb hle h, hbeyond, place_of_isFinite hb,
    ← inRange_of_abs_lt (abs_value_lt b)]
  exact inRange_lt (abs_value_lt b) (by linarith)

theorem place_of_not_isHalfway (h : ∀ n, ¬IsHalfway (value a) (value b) n) :
    place (a + Clock.forward (b - a)) = place b := by
  have hfin := isFinite_of_le ha hb hle
  rw [(place_add_forward_sub ha hb hle).2, place_of_isFinite hb,
    nearest_add_nearest_sub (isDouble_value a) (isDouble_value b)
      ((zero_le_iff_value hfin).1 ha) ((le_iff_value hfin hb).1 hle) h,
    inRange_of_abs_lt (abs_value_lt b)]

/-- Going to a later beat gets there unless it is halfway. -/
theorem add_forward_sub_eq_iff :
    (a + Clock.forward (b - a) == b) = true ↔ ∀ n, ¬IsHalfway (value a) (value b) n := by
  rw [beq_iff]
  constructor
  · rintro ⟨-, -, hsame⟩ n h
    rcases Int.emod_two_eq_zero_or_one n with hn | hn
    · exact (place_lt_of_isHalfway ha hb hle h hn).ne hsame
    · exact (lt_place_of_isHalfway ha hb hle h hn).ne' hsame
  · intro h
    exact ⟨(place_add_forward_sub ha hb hle).1, isNaN_of_isFinite hb,
      place_of_not_isHalfway ha hb hle h⟩

/-- It gets at least as far unless it falls short. -/
theorem le_add_forward_sub_iff : b ≤ a + Clock.forward (b - a) ↔
    ∀ n, IsHalfway (value a) (value b) n → n % 2 = 1 := by
  have hnan := (place_add_forward_sub ha hb hle).1
  constructor
  · intro h n hhalf
    rcases Int.emod_two_eq_zero_or_one n with hn | hn
    · exact absurd (le_iff.1 h).2.2 (place_lt_of_isHalfway ha hb hle hhalf hn).not_ge
    · exact hn
  · intro h
    refine le_iff.2 ⟨isNaN_of_isFinite hb, hnan, ?_⟩
    by_cases hhalf : ∃ n, IsHalfway (value a) (value b) n
    · obtain ⟨n, hn⟩ := hhalf
      exact (lt_place_of_isHalfway ha hb hle hn (h n hn)).le
    · exact (place_of_not_isHalfway ha hb hle (not_exists.1 hhalf)).ge

end

end Downbeat.Beat
