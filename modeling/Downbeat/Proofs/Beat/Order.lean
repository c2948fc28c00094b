import Mathlib.Algebra.Order.Field.Power
import Mathlib.Algebra.Order.Field.Rat
import Mathlib.Order.WithBot
import Mathlib.Tactic.GCongr
import Mathlib.Tactic.Linarith
import Mathlib.Tactic.NormNum
import Mathlib.Tactic.Positivity
import Mathlib.Tactic.Ring
import Downbeat.Clock

/-!
# The order of beats

A beat that is finite stands for a number (`Beat.value`). Beats compare as their places on a
line with two ends (`Beat.place`), and the beat that is no number compares with none
(`Beat.le_iff`). So the order of beats is transitive, and any two numbers are comparable
(`Beat.le_or_ge`).

The mantissa of a float is below `2 ^ 53`, and at least `2 ^ 52` unless the exponent is the
least one (`Beat.isCanonical_unpack`). That is why the exponents decide before the mantissas
do when two floats are compared.
-/

namespace Downbeat.Beat

open Float.Model (Format UnpackedFloat)
open Float.Model.UnpackedFloat

/-! ## Numbers and places -/

/-- The number of a finite float, and zero for the others. -/
def number : UnpackedFloat → ℚ
  | .finite s m e _ => s.apply m * (2 : ℚ) ^ e
  | _ => 0

/-- The place of a float that is a number or infinite. -/
def rank : UnpackedFloat → WithBot (WithTop ℚ)
  | .infinity .negative => ⊥
  | .infinity .positive => ((⊤ : WithTop ℚ) : WithBot (WithTop ℚ))
  | u => ((number u : WithTop ℚ) : WithBot (WithTop ℚ))

/-- The number that a finite beat stands for, and zero for the others. -/
def value (b : Beat) : ℚ := number b.toModel.unpack

/-- The place of a beat that is a number or infinite. -/
def place (b : Beat) : WithBot (WithTop ℚ) := rank b.toModel.unpack

theorem rank_of_isFinite {u : UnpackedFloat} (h : u.isFinite = true) :
    rank u = ((number u : WithTop ℚ) : WithBot (WithTop ℚ)) := by
  cases u with
  | notANumber => cases h
  | infinity s => cases h
  | zero s => rfl
  | finite s m e hm => rfl

/-! ## Exponents first -/

/-- The mantissa and the exponent are within the bounds of doubles. -/
def IsCanonical : UnpackedFloat → Prop
  | .finite _ m e _ => m < 2 ^ 53 ∧ -1074 ≤ e ∧ (-1074 < e → 2 ^ 52 ≤ m)
  | _ => True

theorem isCanonical_unpack (b : Beat) : IsCanonical b.toModel.unpack := by
  have hbias : (Format.binary64.exponentBias : ℤ) = 1023 := by decide
  have hbits : (Format.binary64.mantissaBitsWithoutImplicit : ℤ) = 52 := by decide
  unfold Float.Model.unpack unpack
  extract_lets mantissa biased exponent
  have hexponent : exponent = biased.toNat - 1075 := by omega
  by_cases hinf : biased = -1#_
  · rw [if_pos hinf]
    by_cases hm : mantissa = 0#_
    · rw [if_pos hm]
      trivial
    · rw [if_neg hm]
      trivial
  · rw [if_neg hinf]
    by_cases hzero : biased = 0#_
    · rw [if_pos hzero]
      have hnone : biased.toNat = 0 := by rw [hzero]; rfl
      by_cases hm : mantissa = 0#_
      · rw [dif_pos hm]
        trivial
      · rw [dif_neg hm]
        refine ⟨lt_trans (BitVec.isLt _) (by decide), ?_, ?_⟩
        · omega
        · omega
    · rw [if_neg hzero]
      have hpos : biased.toNat ≠ 0 := fun h => hzero (BitVec.eq_of_toNat_eq h)
      refine ⟨BitVec.isLt _, ?_, fun _ => ?_⟩
      · omega
      · rw [BitVec.toNat_append, Nat.shiftLeft_eq]
        exact le_trans (by decide) Nat.left_le_or

theorem mul_zpow_lt {m n : ℕ} {e f : ℤ} (hm : m < 2 ^ 53) (hn : 2 ^ 52 ≤ n) (h : e < f) :
    (m : ℚ) * 2 ^ e < n * 2 ^ f := by
  have hm' : (m : ℚ) < 2 ^ 53 := by exact_mod_cast hm
  have hn' : (2 : ℚ) ^ 52 ≤ n := by exact_mod_cast hn
  calc (m : ℚ) * 2 ^ e < 2 ^ 53 * 2 ^ e := by gcongr
    _ = 2 ^ 52 * 2 ^ (e + 1) := by rw [zpow_add₀ two_ne_zero]; ring
    _ ≤ n * 2 ^ f := by
      gcongr
      · norm_num
      · exact h

theorem compare_magnitudes {s t : Sign} {m n : ℕ} {e f : ℤ} {hm : 0 < m} {hn : 0 < n}
    (hu : IsCanonical (.finite s m e hm)) (hv : IsCanonical (.finite t n f hn)) :
    (compare e f).then (compare m n) = compare ((m : ℚ) * 2 ^ e) (n * 2 ^ f) := by
  obtain ⟨hm53, he, hm52⟩ := hu
  obtain ⟨hn53, hf, hn52⟩ := hv
  rcases lt_trichotomy e f with h | rfl | h
  · rw [compare_lt_iff_lt.2 h, compare_lt_iff_lt.2 (mul_zpow_lt hm53 (hn52 (by omega)) h)]
    rfl
  · have hpos : (0 : ℚ) < 2 ^ e := by positivity
    rw [compare_eq_iff_eq.2 rfl, Ordering.then]
    rcases lt_trichotomy m n with h | rfl | h
    · rw [compare_lt_iff_lt.2 h, compare_lt_iff_lt.2]
      gcongr
    · rw [compare_eq_iff_eq.2 rfl, compare_eq_iff_eq.2 rfl]
    · rw [compare_gt_iff_gt.2 h, compare_gt_iff_gt.2]
      show _ < _
      gcongr
  · rw [compare_gt_iff_gt.2 h, compare_gt_iff_gt.2 (mul_zpow_lt hn53 (hm52 (by omega)) h)]
    rfl

theorem compare_neg_neg (x y : ℚ) : compare (-x) (-y) = (compare x y).swap := by
  rcases lt_trichotomy x y with h | rfl | h
  · rw [compare_lt_iff_lt.2 h, compare_gt_iff_gt.2 (neg_lt_neg h), Ordering.swap]
  · rw [compare_eq_iff_eq.2 rfl, compare_eq_iff_eq.2 rfl, Ordering.swap]
  · rw [compare_gt_iff_gt.2 h, compare_lt_iff_lt.2 (neg_lt_neg h), Ordering.swap]

theorem number_positive {m : ℕ} {e : ℤ} (hm : 0 < m) :
    number (.finite .positive m e hm) = m * 2 ^ e := by
  show (((m : ℤ) : ℚ)) * 2 ^ e = _
  rw [Int.cast_natCast]

theorem number_negative {m : ℕ} {e : ℤ} (hm : 0 < m) :
    number (.finite .negative m e hm) = -(m * 2 ^ e) := by
  show ((-(m : ℤ) : ℤ) : ℚ) * 2 ^ e = _
  rw [Int.cast_neg, Int.cast_natCast, neg_mul]

theorem number_positive_pos {m : ℕ} (e : ℤ) (hm : 0 < m) :
    0 < number (.finite .positive m e hm) := by
  rw [number_positive]
  positivity

theorem number_negative_neg {m : ℕ} (e : ℤ) (hm : 0 < m) :
    number (.finite .negative m e hm) < 0 := by
  rw [number_negative, neg_lt_zero]
  positivity

/-- Finite floats compare as their numbers do. -/
theorem compare_number {u v : UnpackedFloat} (hu : IsCanonical u) (hv : IsCanonical v)
    (hu' : u.isFinite = true) (hv' : v.isFinite = true) :
    u.compare v = some (compare (number u) (number v)) := by
  cases u with
  | notANumber => cases hu'
  | infinity s => cases hu'
  | zero s =>
    cases v with
    | notANumber => cases hv'
    | infinity t => cases hv'
    | zero t => exact congrArg some (compare_eq_iff_eq.2 rfl).symm
    | finite t n f hn =>
      cases t
      · exact congrArg some (compare_gt_iff_gt.2 (number_negative_neg f hn)).symm
      · exact congrArg some (compare_lt_iff_lt.2 (number_positive_pos f hn)).symm
  | finite s m e hm =>
    cases v with
    | notANumber => cases hv'
    | infinity t => cases hv'
    | zero t =>
      cases s
      · exact congrArg some (compare_lt_iff_lt.2 (number_negative_neg e hm)).symm
      · exact congrArg some (compare_gt_iff_gt.2 (number_positive_pos e hm)).symm
    | finite t n f hn =>
      have hmagnitudes := compare_magnitudes hu hv
      cases s <;> cases t
      · rw [number_negative, number_negative, compare_neg_neg, ← hmagnitudes]
        rfl
      · have hlt := (number_negative_neg e hm).trans (number_positive_pos f hn)
        exact congrArg some (compare_lt_iff_lt.2 hlt).symm
      · have hlt := (number_negative_neg f hn).trans (number_positive_pos e hm)
        exact congrArg some (compare_gt_iff_gt.2 hlt).symm
      · rw [number_positive, number_positive, ← hmagnitudes]
        rfl

/-- What is neither finite nor no number is infinite. -/
theorem exists_eq_infinity {u : UnpackedFloat} (hfin : ¬u.isFinite = true)
    (hnan : u.isNaN = false) : ∃ s, u = .infinity s := by
  cases u with
  | notANumber => cases hnan
  | infinity s => exact ⟨s, rfl⟩
  | zero s => exact absurd rfl hfin
  | finite s m e hm => exact absurd rfl hfin

theorem compare_infinity {u : UnpackedFloat} (hu : u.isFinite = true) :
    u.compare (.infinity .positive) = some .lt ∧ u.compare (.infinity .negative) = some .gt ∧
      (infinity .positive).compare u = some .gt ∧ (infinity .negative).compare u = some .lt := by
  cases u with
  | notANumber => cases hu
  | infinity s => cases hu
  | zero s => exact ⟨rfl, rfl, rfl, rfl⟩
  | finite s m e hm => cases s <;> exact ⟨rfl, rfl, rfl, rfl⟩

theorem compare_rank {u v : UnpackedFloat} (hu : IsCanonical u) (hv : IsCanonical v)
    (hu' : u.isNaN = false) (hv' : v.isNaN = false) :
    u.compare v = some (compare (rank u) (rank v)) := by
  have lt : ∀ {x y : WithBot (WithTop ℚ)}, x < y → compare x y = .lt := compare_lt_iff_lt.2
  have gt : ∀ {x y : WithBot (WithTop ℚ)}, y < x → compare x y = .gt := compare_gt_iff_gt.2
  have bot : ∀ x : WithTop ℚ, (⊥ : WithBot (WithTop ℚ)) < x := WithBot.bot_lt_coe
  have top : ∀ x : ℚ, ((x : WithTop ℚ) : WithBot (WithTop ℚ)) < (⊤ : WithTop ℚ) :=
    fun x => WithBot.coe_lt_coe.2 (WithTop.coe_lt_top x)
  by_cases hfu : u.isFinite = true <;> by_cases hfv : v.isFinite = true
  · rw [compare_number hu hv hfu hfv, rank_of_isFinite hfu, rank_of_isFinite hfv]
    rcases lt_trichotomy (number u) (number v) with h | h | h
    · rw [compare_lt_iff_lt.2 h, lt (by exact_mod_cast h)]
    · rw [h, compare_eq_iff_eq.2 rfl, compare_eq_iff_eq.2 rfl]
    · rw [compare_gt_iff_gt.2 h, gt (by exact_mod_cast h)]
  · obtain ⟨s, rfl⟩ := exists_eq_infinity hfv hv'
    obtain ⟨htop, hbot, -, -⟩ := compare_infinity hfu
    rw [rank_of_isFinite hfu]
    cases s
    · rw [rank, gt (bot _), hbot]
    · rw [rank, lt (top _), htop]
  · obtain ⟨s, rfl⟩ := exists_eq_infinity hfu hu'
    obtain ⟨-, -, htop, hbot⟩ := compare_infinity hfv
    rw [rank_of_isFinite hfv]
    cases s
    · rw [rank, lt (bot _), hbot]
    · rw [rank, gt (top _), htop]
  · obtain ⟨s, rfl⟩ := exists_eq_infinity hfu hu'
    obtain ⟨t, rfl⟩ := exists_eq_infinity hfv hv'
    cases s <;> cases t
    · rw [compare_eq_iff_eq.2 rfl]
      rfl
    · rw [rank, rank, lt (bot _)]
      rfl
    · rw [rank, rank, gt (bot _)]
      rfl
    · rw [compare_eq_iff_eq.2 rfl]
      rfl

theorem compare_eq_none {u v : UnpackedFloat} (h : u.isNaN = true ∨ v.isNaN = true) :
    u.compare v = none := by
  rcases h with h | h
  · cases u with
    | notANumber => rfl
    | _ => cases h
  · cases v with
    | notANumber => cases u <;> rfl
    | _ => cases h

/-! ## The order -/

theorem le_iff {a b : Beat} :
    a ≤ b ↔ a.isNaN = false ∧ b.isNaN = false ∧ place a ≤ place b := by
  have hdef : a ≤ b ↔ (a.toModel.unpack.compare b.toModel.unpack).any (·.isLE) = true := by
    show decide (a.toModel ≤ b.toModel) = true ↔ _
    rw [decide_eq_true_iff]
    rfl
  rw [hdef]
  cases ha : a.isNaN with
  | true =>
    rw [compare_eq_none (.inl ha)]
    simp
  | false =>
    cases hb : b.isNaN with
    | true =>
      rw [compare_eq_none (.inr hb)]
      simp
    | false =>
      rw [compare_rank (isCanonical_unpack a) (isCanonical_unpack b) ha hb, Option.any_some,
        ← Ordering.ne_gt_iff_isLE, ← ne_eq, compare_le_iff_le]
      simp [place]

theorem lt_iff {a b : Beat} :
    a < b ↔ a.isNaN = false ∧ b.isNaN = false ∧ place a < place b := by
  have hdef : a < b ↔ a.toModel.unpack.compare b.toModel.unpack = some .lt := by
    show decide (a.toModel < b.toModel) = true ↔ _
    rw [decide_eq_true_iff]
    show (a.toModel.unpack.compare b.toModel.unpack == some .lt) = true ↔ _
    simp
  rw [hdef]
  cases ha : a.isNaN with
  | true =>
    rw [compare_eq_none (.inl ha)]
    simp
  | false =>
    cases hb : b.isNaN with
    | true =>
      rw [compare_eq_none (.inr hb)]
      simp
    | false =>
      rw [compare_rank (isCanonical_unpack a) (isCanonical_unpack b) ha hb, Option.some_inj,
        compare_lt_iff_lt]
      simp [place]

theorem le_refl {a : Beat} (ha : a.isNaN = false) : a ≤ a :=
  le_iff.2 ⟨ha, ha, le_rfl⟩

protected theorem le_trans {a b c : Beat} (hab : a ≤ b) (hbc : b ≤ c) : a ≤ c := by
  obtain ⟨ha, -, hab⟩ := le_iff.1 hab
  obtain ⟨-, hc, hbc⟩ := le_iff.1 hbc
  exact le_iff.2 ⟨ha, hc, hab.trans hbc⟩

instance : @Trans Beat Beat Beat (· ≤ ·) (· ≤ ·) (· ≤ ·) := ⟨Beat.le_trans⟩

protected theorem lt_of_le_of_lt {a b c : Beat} (hab : a ≤ b) (hbc : b < c) : a < c := by
  obtain ⟨ha, -, hab⟩ := le_iff.1 hab
  obtain ⟨-, hc, hbc⟩ := lt_iff.1 hbc
  exact lt_iff.2 ⟨ha, hc, lt_of_le_of_lt hab hbc⟩

protected theorem lt_of_lt_of_le {a b c : Beat} (hab : a < b) (hbc : b ≤ c) : a < c := by
  obtain ⟨ha, -, hab⟩ := lt_iff.1 hab
  obtain ⟨-, hc, hbc⟩ := le_iff.1 hbc
  exact lt_iff.2 ⟨ha, hc, lt_of_lt_of_le hab hbc⟩

/-- Of two beats that are numbers one comes first. -/
theorem not_le_iff {a b : Beat} (ha : a.isNaN = false) (hb : b.isNaN = false) :
    ¬a ≤ b ↔ b < a := by
  simp only [le_iff, lt_iff, ha, hb, true_and, not_le]

theorem le_or_ge {a b : Beat} (ha : a.isNaN = false) (hb : b.isNaN = false) : a ≤ b ∨ b ≤ a := by
  rcases le_total (place a) (place b) with h | h
  · exact .inl (le_iff.2 ⟨ha, hb, h⟩)
  · exact .inr (le_iff.2 ⟨hb, ha, h⟩)

/-- The latest of some beats is one of them, and no other is later. -/
theorem foldl_max {b : Beat} {bs : List Beat} (h : ∀ x ∈ b :: bs, x.isNaN = false) :
    bs.foldl max b ∈ b :: bs ∧ ∀ x ∈ b :: bs, x ≤ bs.foldl max b := by
  induction bs generalizing b with
  | nil => exact ⟨List.mem_singleton_self b, by simpa using le_refl (h b (by simp))⟩
  | cons c bs ih =>
    have hb := h b (by simp)
    have hc := h c (by simp)
    have hmax : (max b c = b ∨ max b c = c) ∧ b ≤ max b c ∧ c ≤ max b c := by
      have hdef : max b c = if b ≤ c then c else b := rfl
      by_cases hbc : b ≤ c
      · rw [hdef, if_pos hbc]
        exact ⟨.inr rfl, hbc, le_refl hc⟩
      · rw [hdef, if_neg hbc]
        exact ⟨.inl rfl, le_refl hb, (le_or_ge hb hc).resolve_left hbc⟩
    obtain ⟨hor, hble, hcle⟩ := hmax
    have hnan : ∀ x ∈ max b c :: bs, x.isNaN = false := by
      intro x hx
      rcases List.mem_cons.1 hx with rfl | hx
      · rcases hor with h | h <;> rw [h] <;> assumption
      · exact h x (by simp [hx])
    obtain ⟨hmem, hle⟩ := ih hnan
    have htop := hle _ List.mem_cons_self
    refine ⟨?_, ?_⟩
    · rw [List.foldl_cons]
      rcases List.mem_cons.1 hmem with hmem | hmem
      · rw [hmem]
        rcases hor with h | h <;> simp [h]
      · simp [hmem]
    · intro x hx
      rw [List.foldl_cons]
      rcases List.mem_cons.1 hx with rfl | hx
      · exact Beat.le_trans hble htop
      · rcases List.mem_cons.1 hx with rfl | hx
        · exact Beat.le_trans hcle htop
        · exact hle x (by simp [hx])

/-! ## Ends of the line -/

theorem place_inf : place (1 / 0) = ((⊤ : WithTop ℚ) : WithBot (WithTop ℚ)) := by
  have hunpack : (1 / 0 : Beat).toModel.unpack = .infinity .positive := by rfl
  rw [place, hunpack, rank]

theorem add_inf (a : Beat) : a + 1 / 0 = 0 / 0 ∨ a + 1 / 0 = 1 / 0 := by
  have hunpack : (1 / 0 : Beat).toModel.unpack = .infinity .positive := by rfl
  have hadd : a + 1 / 0 = .ofModel (.pack (add .binary64 a.toModel.unpack
      (1 / 0 : Beat).toModel.unpack)) := rfl
  rw [hadd, hunpack]
  cases a.toModel.unpack with
  | notANumber => exact .inl (by decide)
  | infinity s =>
    cases s
    · exact .inl (by decide)
    · exact .inr (by decide)
  | zero s => exact .inr rfl
  | finite s m e hm => exact .inr rfl

/-- Nothing is later than the end of an event without end. -/
theorem le_of_add_inf_le {a b c d : Beat} (h : a + 1 / 0 ≤ b) (hcd : c ≤ d) : c ≤ b := by
  obtain ⟨hnan, hb, hle⟩ := le_iff.1 h
  obtain ⟨hc, -, -⟩ := le_iff.1 hcd
  rcases add_inf a with hsum | hsum
  · rw [hsum] at hnan
    exact absurd hnan (by decide)
  · rw [hsum, place_inf] at hle
    refine le_iff.2 ⟨hc, hb, le_trans ?_ hle⟩
    cases place c with
    | bot => exact bot_le
    | coe x => exact WithBot.coe_le_coe.2 le_top

/-- A beat that is not below zero does not stand for a negative number. -/
theorem value_nonneg {b : Beat} (hb : b.isNaN = false) (h : ¬b < 0) : 0 ≤ value b := by
  have hzero : place 0 = ((0 : WithTop ℚ) : WithBot (WithTop ℚ)) := by
    have hunpack : (0 : Beat).toModel.unpack = .zero .positive := by rfl
    rw [place, hunpack]
    rfl
  rw [lt_iff, hzero] at h
  by_cases hfin : b.toModel.unpack.isFinite = true
  · have hplace : place b = _ := rank_of_isFinite hfin
    rw [hplace] at h
    by_contra hneg
    refine h ⟨hb, by decide, ?_⟩
    exact_mod_cast not_le.1 hneg
  · obtain ⟨s, hs⟩ := exists_eq_infinity hfin hb
    rw [value, hs]
    exact le_rfl

end Downbeat.Beat
