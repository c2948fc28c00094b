import Downbeat.Encounter.Pattern
import Downbeat.Proofs.Beat.Halfway
import Downbeat.Proofs.Beat.WholePart
import Downbeat.Proofs.Chance.Shares

/-!
# The quarters of the rolls

A roll picks the pattern whose place is the quarter that the roll lies in (`Pattern.index_pick`). A
quarter begins exactly at the double that is its number divided by four (`Pattern.le_quarter_iff`),
for every roll whatever : four times a roll in the range is not rounded, so none gets to the quarter
of a neighbour. What is no number is not behind any beginning, and so is in the first quarter. The
cap is for rolls from one on, and so for none that is drawn (`Pattern.quarter_lt_scaled_iff`).

The rolls that there are fall into the quarters in equal numbers, and the quarter of one is told by
the upper two bits of the word it is drawn from (`Pattern.quarter_fraction`).
-/

namespace Downbeat.Pattern

open Beat

/-! ## Patterns and their places -/

theorem getElem?_all_index (p : Pattern) : all[p.index]? = some p := by cases p <;> rfl

theorem index_lt (p : Pattern) : p.index < 4 := by cases p <;> decide

theorem index_inj_iff {p q : Pattern} : p.index = q.index ↔ p = q := by
  cases p <;> cases q <;> decide

theorem quarter_le (roll : Float) : quarter roll ≤ 3 := min_le_right _ _

/-- A roll picks the pattern whose place is its quarter. -/
theorem index_pick (roll : Float) : (pick roll).index = quarter roll := by
  have hle := quarter_le roll
  rw [pick]
  generalize quarter roll = q at hle
  interval_cases q <;> rfl

/-! ## The range of rolls -/

theorem value_one : (1 : Float).isFinite = true ∧ value 1 = 1 := by
  exact_mod_cast value_ofNat (n := 1) (by norm_num)

theorem value_four : (4 : Float).isFinite = true ∧ value 4 = 4 := by
  exact_mod_cast value_ofNat (n := 4) (by norm_num)

theorem isDouble_mul_four {x : ℚ} (h : IsDouble x) : IsDouble (x * 4) := by
  obtain ⟨m, e, hm, he, rfl⟩ := h
  refine ⟨m, e + 2, hm, by omega, ?_⟩
  rw [two_zpow_add, ← mul_assoc]
  norm_num

section

variable {roll : Float} (h : roll.isNaN = false)
include h

theorem clamp_bounds : 0 ≤ clamp roll ∧ clamp roll ≤ 1 := by
  unfold clamp
  split_ifs with hlow hhigh
  · decide +kernel
  · decide +kernel
  · exact ⟨not_not.1 fun hneg => hlow ((not_le_iff (by decide) h).1 hneg),
      not_not.1 fun hone => hhigh ((not_le_iff h (by decide)).1 hone)⟩

/-- A roll that is brought into the range is a number from zero to one. -/
theorem value_clamp :
    (clamp roll).isFinite = true ∧ 0 ≤ value (clamp roll) ∧ value (clamp roll) ≤ 1 := by
  obtain ⟨hzero, hone⟩ := clamp_bounds h
  have hfin := isFinite_of_le hzero value_one.1 hone
  refine ⟨hfin, (zero_le_iff_value hfin).1 hzero, ?_⟩
  rw [← value_one.2]
  exact (le_iff_value hfin value_one.1).1 hone

/-- Four times a roll in the range is not rounded, and its whole part is a word. -/
theorem toNat_scaled : (clamp roll * 4).toUInt64.toNat = ⌊value (clamp roll) * 4⌋₊ := by
  obtain ⟨hfin, hzero, hone⟩ := value_clamp h
  have hle : value (clamp roll) * 4 ≤ 4 := by linarith
  have hrange : |value (clamp roll) * 4| < 2 ^ (1024 : ℤ) := by
    rw [abs_of_nonneg (by positivity)]
    calc value (clamp roll) * 4 ≤ 4 := hle
      _ = value 4 := value_four.2.symm
      _ ≤ |value 4| := le_abs_self _
      _ < 2 ^ (1024 : ℤ) := abs_value_lt 4
  obtain ⟨hprod, hvalue⟩ := value_mul_of_eq hfin value_four.1 (by rw [value_four.2])
    (isDouble_mul_four (isDouble_value _)) hrange
  have hfloor : ⌊value (clamp roll) * 4⌋₊ ≤ 4 := Nat.floor_le_of_le (by exact_mod_cast hle)
  rw [toNat_toUInt64 hprod, hvalue]
  exact min_eq_left (hfloor.trans (by decide))

end

/-- What is no number counts to the lower end. -/
theorem toNat_scaled_of_isNaN {roll : Float} (h : roll.isNaN = true) :
    (clamp roll * 4).toUInt64.toNat = 0 := by
  obtain rfl : roll = Float.nan := by simpa using h
  decide +kernel

/-! ## Where the quarters begin -/

/-- A beat in the range comes before a roll just if it does so once the roll is in the range. -/
theorem le_clamp_iff {b roll : Float} (hpos : 0 < b) (hone : b ≤ 1) :
    b ≤ clamp roll ↔ b ≤ roll := by
  have hnot : ∀ c, c ≤ 0 → ¬b ≤ c := fun c hc hle =>
    absurd (Beat.lt_of_lt_of_le hpos (Beat.le_trans hle hc)) (by decide)
  unfold clamp
  split_ifs with hlow hhigh
  · exact iff_of_false (hnot 0 (by decide)) (hnot roll (Beat.le_of_lt hlow))
  · exact iff_of_true hone (Beat.le_trans hone (Beat.le_of_lt hhigh))
  · rfl

/-- The roll at which a quarter begins. -/
def beginning (i : Nat) : Float := Float.ofNat i / 4

theorem value_beginning :
    ∀ i ≤ 4, (beginning i).isFinite = true ∧ value (beginning i) = i / 4 := by
  decide +kernel

theorem le_scaled_iff {i : Nat} {roll : Float} (hpos : 0 < i) (hle : i ≤ 4) :
    i ≤ (clamp roll * 4).toUInt64.toNat ↔ beginning i ≤ roll := by
  cases hnan : roll.isNaN with
  | true =>
    rw [toNat_scaled_of_isNaN hnan, le_iff, hnan]
    exact iff_of_false (Nat.not_le_of_lt hpos) nofun
  | false =>
    obtain ⟨hfin, hvalue⟩ := value_beginning i hle
    obtain ⟨hfin', hzero, -⟩ := value_clamp hnan
    have hpos' : 0 < beginning i := by
      rw [lt_iff_value isFinite_zero hfin, value_zero, hvalue]
      positivity
    have hone : beginning i ≤ 1 := by
      rw [le_iff_value hfin value_one.1, value_one.2, hvalue, div_le_one (by norm_num)]
      exact_mod_cast hle
    rw [← le_clamp_iff hpos' hone, le_iff_value hfin hfin', hvalue, toNat_scaled hnan,
      Nat.le_floor_iff (by positivity), div_le_iff₀ (by norm_num)]

/-- A quarter begins exactly at its number divided by four. -/
theorem le_quarter_iff {i : Nat} {roll : Float} (hpos : 0 < i) (hle : i ≤ 3) :
    i ≤ quarter roll ↔ beginning i ≤ roll := by
  rw [quarter, le_min_iff, and_iff_left hle, le_scaled_iff hpos (by omega)]

/-- Only the upper end, and what is beyond it, is taken back into the last quarter. -/
theorem quarter_lt_scaled_iff {roll : Float} :
    quarter roll < (clamp roll * 4).toUInt64.toNat ↔ 1 ≤ roll := by
  have hone : (1 : Float) = beginning 4 := by decide +kernel
  rw [hone, ← le_scaled_iff (by decide) le_rfl, quarter, min_lt_iff, or_iff_right (lt_irrefl _),
    Nat.lt_iff_add_one_le]

theorem quarter_mono {low high : Float} (h : low ≤ high) : quarter low ≤ quarter high := by
  have hle := quarter_le low
  rcases Nat.eq_zero_or_pos (quarter low) with hzero | hpos
  · rw [hzero]
    exact Nat.zero_le _
  · exact (le_quarter_iff hpos hle).2 (Beat.le_trans ((le_quarter_iff hpos hle).1 le_rfl) h)

/-! ## The quarters of the rolls that there are -/

theorem quarter_share {k : Nat} (hk : k < 2 ^ 53) : quarter (Rolls.share k) = k / 2 ^ 51 := by
  have hle := quarter_le (Rolls.share k)
  obtain ⟨hfin, hvalue⟩ := Rolls.value_share hk
  refine eq_of_forall_le_iff fun i => ?_
  rcases Nat.eq_zero_or_pos i with rfl | hpos
  · exact iff_of_true (Nat.zero_le _) (Nat.zero_le _)
  by_cases hi : i ≤ 3
  · obtain ⟨hfin', hvalue'⟩ := value_beginning i (by omega)
    have hcast : (i / 4 : ℚ) ≤ k / 2 ^ 53 ↔ i * 2 ^ 53 ≤ k * 4 := by
      rw [div_le_div_iff₀ (by norm_num) (by positivity)]
      exact_mod_cast Iff.rfl
    rw [le_quarter_iff hpos hi, le_iff_value hfin' hfin, hvalue, hvalue', hcast]
    omega
  · exact iff_of_false (by omega) (by omega)

/-- The upper two bits of a word tell the quarter of its roll. -/
theorem quarter_fraction (n : UInt64) : quarter (Rolls.fraction n) = n.toNat / 2 ^ 62 := by
  have hlt := n.toNat_lt
  rw [Rolls.fraction_eq_share, quarter_share (by omega), Nat.div_div_eq_div_mul, ← pow_add]

theorem pick_share_eq_iff {k : Nat} (hk : k < 2 ^ 53) {p : Pattern} :
    pick (Rolls.share k) = p ↔ k / 2 ^ 51 = p.index := by
  rw [← index_inj_iff, index_pick, quarter_share hk]

/-- The rolls that pick a pattern are a stretch of the shares. -/
theorem sep_shares_eq (p : Pattern) : {roll ∈ Rolls.shares | pick roll = p} =
    Rolls.share '' Set.Ico (p.index * 2 ^ 51) ((p.index + 1) * 2 ^ 51) := by
  have hp := p.index_lt
  ext roll
  constructor
  · rintro ⟨⟨k, hk, rfl⟩, hpick⟩
    have hindex := (pick_share_eq_iff hk).1 hpick
    exact ⟨k, ⟨by omega, by omega⟩, rfl⟩
  · rintro ⟨k, ⟨hlow, hhigh⟩, rfl⟩
    have hk : k < 2 ^ 53 := by omega
    exact ⟨⟨k, hk, rfl⟩, (pick_share_eq_iff hk).2 (by omega)⟩

/-- Each pattern is picked by as many of the rolls. -/
theorem ncard_sep_shares (p : Pattern) :
    {roll ∈ Rolls.shares | pick roll = p}.ncard = 2 ^ 51 := by
  have hp := p.index_lt
  have hinj : Set.InjOn Rolls.share (Set.Ico (p.index * 2 ^ 51) ((p.index + 1) * 2 ^ 51)) :=
    Rolls.injOn_share.mono fun k hk => Set.mem_Iio.2 (by have := hk.2; omega)
  rw [sep_shares_eq, hinj.ncard_image, ← Finset.coe_Ico, Set.ncard_coe_finset,
    Nat.card_Ico]
  omega

/-- The rolls are cut into four equal parts. Of the `2 ^ 53` rolls that there are, the roll of `k`
parts picks the pattern at the place `k / 2 ^ 51`, and so each pattern is picked by `2 ^ 51` of
them. Any other double has a quarter as well, to which there is a pattern, and none of them gets
into an earlier quarter than one that is not above it. -/
theorem quarters_rolls :
    (∀ k < 2 ^ 53, all[k / 2 ^ 51]? = some (pick (Rolls.share k))) ∧
      (∀ p : Pattern, {roll ∈ Rolls.shares | pick roll = p}.ncard = 2 ^ 51) ∧
      (∀ rolls : Rolls, rolls.draw.1 ∈ Rolls.shares) ∧
      (∀ roll : Float, quarter roll < all.length ∧ all[quarter roll]? = some (pick roll)) ∧
      ∀ low high : Float, low ≤ high → quarter low ≤ quarter high := by
  have hpick : ∀ roll : Float, all[quarter roll]? = some (pick roll) := fun roll => by
    rw [← index_pick, getElem?_all_index]
  refine ⟨fun k hk => ?_, ncard_sep_shares, Rolls.draw_mem_shares, fun roll => ⟨?_, hpick roll⟩,
    fun low high => quarter_mono⟩
  · rw [← quarter_share hk, hpick]
  · exact Nat.lt_succ_of_le (quarter_le roll)

/-- The last roll of the first quarter and the first one of the second. The lower end of the line is
not in a later quarter than the least double above zero. -/
theorem quarters_rolls_edges :
    pick (Rolls.share (2 ^ 51 - 1)) = sweep ∧ pick (Rolls.share (2 ^ 51)) = spiral ∧
      (-1 / 0 : Float) ≤ 5e-324 ∧ quarter (-1 / 0) ≤ quarter 5e-324 := by
  obtain ⟨hpick, -, -, -, hmono⟩ := quarters_rolls
  have hlast : some sweep = some (pick (Rolls.share (2 ^ 51 - 1))) :=
    hpick (2 ^ 51 - 1) (by norm_num)
  have hfirst : some spiral = some (pick (Rolls.share (2 ^ 51))) := hpick (2 ^ 51) (by norm_num)
  have hle : (-1 / 0 : Float) ≤ 5e-324 := by decide +kernel
  exact ⟨(Option.some.inj hlast).symm, (Option.some.inj hfirst).symm, hle, hmono _ _ hle⟩

end Downbeat.Pattern
