import Downbeat.Proofs.Beat.Halfway

/-!
# What a sum is rounded by

A sum of beats is off by what it is rounded by (`Beat.slip`). A length that is added to a beat and
taken off again leaves the beat off by that, and then the difference is rounded. So the beat is given
back if it absorbs the slip (`Beat.Absorbs`, `Beat.add_sub_eq_iff`) : if this is less than half the
distance between the doubles there, or half of it and the beat is even there. Otherwise the beat is
missed on the side to which the sum was rounded.

Of three beats that are summed in the two orders, the sum is the lesser in the order whose first sum
is rounded further down (`Beat.add_add_le`).
-/

namespace Downbeat.Beat

/-! ## Numbers -/

/-- The whole number that a number is rounded to is within one half of it, and even at one half. -/
theorem roundEven_eq_iff {n : ℤ} {q : ℚ} :
    roundEven q = n ↔ |n - q| < 1 / 2 ∨ |n - q| = 1 / 2 ∧ n % 2 = 0 := by
  constructor
  · rintro rfl
    rcases (abs_roundEven_sub_le q).lt_or_eq with hlt | hhalf
    · exact .inl hlt
    · refine .inr ⟨hhalf, ?_⟩
      rw [eq_add_half_of_le hhalf.ge, roundEven_add_half]
      omega
  · intro h
    have hle : |q - n| ≤ 1 / 2 := by
      rw [abs_sub_comm]
      exact h.elim le_of_lt fun h => h.1.le
    refine roundEven_eq hle fun hodd => ?_
    rw [abs_sub_comm]
    exact h.resolve_right fun h => by omega

/-- A double that is off by `δ` absorbs this : it is off by less than half the distance between the
doubles there, or by half of it, and it is even. -/
def Absorbs (x δ : ℚ) : Prop :=
  ∃ m : ℤ, x = m * 2 ^ grid (x + δ) ∧
    (|δ| < 2 ^ grid (x + δ) / 2 ∨ |δ| = 2 ^ grid (x + δ) / 2 ∧ m % 2 = 0)

theorem nearest_add_eq_iff {x δ : ℚ} : nearest (x + δ) = x ↔ Absorbs x δ := by
  have hunit := two_zpow_pos (grid (x + δ))
  obtain ⟨q, hq⟩ : ∃ q : ℚ, x + δ = q * 2 ^ grid (x + δ) := ⟨_, (div_mul_cancel₀ _ hunit.ne').symm⟩
  have hnearest : nearest (x + δ) = roundEven q * 2 ^ grid (x + δ) := by
    rw [nearest]
    nth_rewrite 1 [hq]
    rw [mul_div_cancel_right₀ _ hunit.ne']
  -- `m` units of `x` are off by `δ` from the `q` units that are rounded
  have hoff : ∀ m : ℤ, x = m * 2 ^ grid (x + δ) → |δ| = |m - q| * 2 ^ grid (x + δ) := by
    intro m hm
    have hδ : δ = (q - m) * 2 ^ grid (x + δ) := by
      rw [sub_mul, ← hq, ← hm, add_sub_cancel_left]
    nth_rewrite 1 [hδ]
    rw [abs_mul, abs_of_pos hunit, abs_sub_comm]
  have hhalf : (2 : ℚ) ^ grid (x + δ) / 2 = 1 / 2 * 2 ^ grid (x + δ) := by ring
  rw [hnearest, Absorbs]
  constructor
  · intro h
    refine ⟨roundEven q, h.symm, ?_⟩
    rw [hoff _ h.symm, hhalf, mul_lt_mul_iff_left₀ hunit, mul_left_inj' hunit.ne']
    exact roundEven_eq_iff.1 rfl
  · rintro ⟨m, hm, h⟩
    rw [hoff m hm, hhalf, mul_lt_mul_iff_left₀ hunit, mul_left_inj' hunit.ne'] at h
    rw [roundEven_eq_iff.2 h, ← hm]

/-- What the sum of two numbers is rounded by. -/
def slip (x y : ℚ) : ℚ := nearest (x + y) - (x + y)

/-! ## Beats -/

theorem inRange_eq_coe_iff {x y : ℚ} (hy : |y| < 2 ^ (1024 : ℤ)) :
    inRange x = ((y : WithTop ℚ) : WithBot (WithTop ℚ)) ↔ x = y := by
  constructor
  · intro h
    unfold inRange at h
    split_ifs at h with hx hpos
    · exact_mod_cast h
    · cases h
    · cases h
  · rintro rfl
    exact inRange_of_abs_lt hy

section

variable {a b r : Beat}

/-- A finite sum stands for the double nearest to the sum of the numbers. -/
theorem value_add_of_isFinite (h : (a + b).isFinite = true) :
    value (a + b) = nearest (value a + value b) := by
  obtain ⟨ha, hb⟩ := isFinite_of_isFinite_add h
  have hplace := (place_add ha hb).2
  rw [place_of_isFinite h] at hplace
  exact ((inRange_eq_coe_iff (abs_value_lt _)).1 hplace.symm).symm

variable (h : (b + r).isFinite = true)
include h

/-- A length that is added and taken off again is rounded twice. -/
theorem place_add_sub : (b + r - r).isNaN = false ∧
    place (b + r - r) = inRange (nearest (value b + slip (value b) (value r))) := by
  obtain ⟨-, hr⟩ := isFinite_of_isFinite_add h
  have hsum : value (b + r) + value (-r) = value b + slip (value b) (value r) := by
    rw [value_add_of_isFinite h, value_neg, slip]
    ring
  have hplace := place_add h (isFinite_neg.trans hr)
  rwa [← sub_eq_add_neg, hsum] at hplace

/-- A length that is added and taken off again gives back the beat if it absorbs the slip. -/
theorem add_sub_eq_iff : (b + r - r == b) = true ↔ Absorbs (value b) (slip (value b) (value r)) := by
  obtain ⟨hb, -⟩ := isFinite_of_isFinite_add h
  obtain ⟨hnan, hplace⟩ := place_add_sub h
  rw [beq_iff, hplace, place_of_isFinite hb, inRange_eq_coe_iff (abs_value_lt b),
    nearest_add_eq_iff]
  exact ⟨fun h => h.2.2, fun habsorbs => ⟨hnan, isNaN_of_isFinite hb, habsorbs⟩⟩

/-- What is rounded up is found later, and what is rounded down earlier, if at all elsewhere. -/
theorem le_add_sub (hslip : 0 ≤ slip (value b) (value r)) : b ≤ b + r - r := by
  obtain ⟨hb, -⟩ := isFinite_of_isFinite_add h
  obtain ⟨hnan, hplace⟩ := place_add_sub h
  refine le_iff.2 ⟨isNaN_of_isFinite hb, hnan, ?_⟩
  rw [hplace, place_of_isFinite hb, ← inRange_of_abs_lt (abs_value_lt b)]
  exact inRange_mono (le_nearest (isDouble_value b) (le_add_of_nonneg_right hslip))

theorem add_sub_le (hslip : slip (value b) (value r) ≤ 0) : b + r - r ≤ b := by
  obtain ⟨hb, -⟩ := isFinite_of_isFinite_add h
  obtain ⟨hnan, hplace⟩ := place_add_sub h
  refine le_iff.2 ⟨hnan, isNaN_of_isFinite hb, ?_⟩
  rw [hplace, place_of_isFinite hb, ← inRange_of_abs_lt (abs_value_lt b)]
  refine inRange_mono ?_
  calc nearest (value b + slip (value b) (value r)) ≤ nearest (value b) :=
        nearest_mono (add_le_of_nonpos_right hslip)
    _ = value b := nearest_of_isDouble (isDouble_value b)

end

/-! ## Sums of three beats -/

section

variable {a b d : Beat}

theorem place_add_add (h : (a + b).isFinite = true) (hd : d.isFinite = true) :
    (a + b + d).isNaN = false ∧ place (a + b + d) =
      inRange (nearest (value a + value b + value d + slip (value a) (value b))) := by
  have hsum : value (a + b) + value d =
      value a + value b + value d + slip (value a) (value b) := by
    rw [value_add_of_isFinite h, slip]
    ring
  rw [← hsum]
  exact place_add h hd

variable (h : (a + b).isFinite = true) (h' : (b + d).isFinite = true)
include h h'

/-- The sum of the same three beats in the other order. -/
theorem place_add_add_of_comm : (a + (b + d)).isNaN = false ∧ place (a + (b + d)) =
    inRange (nearest (value a + value b + value d + slip (value b) (value d))) := by
  have hsum : value b + value d + value a = value a + value b + value d := by ring
  rw [Beat.add_comm a, ← hsum]
  exact place_add_add h' (isFinite_of_isFinite_add h).1

theorem add_add_le (hslip : slip (value a) (value b) ≤ slip (value b) (value d)) :
    a + b + d ≤ a + (b + d) := by
  obtain ⟨hnan, hplace⟩ := place_add_add h (isFinite_of_isFinite_add h').2
  obtain ⟨hnan', hplace'⟩ := place_add_add_of_comm h h'
  refine le_iff.2 ⟨hnan, hnan', ?_⟩
  rw [hplace, hplace']
  exact inRange_mono (nearest_mono (add_le_add le_rfl hslip))

theorem le_add_add (hslip : slip (value b) (value d) ≤ slip (value a) (value b)) :
    a + (b + d) ≤ a + b + d := by
  obtain ⟨hnan, hplace⟩ := place_add_add h (isFinite_of_isFinite_add h').2
  obtain ⟨hnan', hplace'⟩ := place_add_add_of_comm h h'
  refine le_iff.2 ⟨hnan', hnan, ?_⟩
  rw [hplace, hplace']
  exact inRange_mono (nearest_mono (add_le_add le_rfl hslip))

end

end Downbeat.Beat
