import Downbeat.Proofs.Beat.Horizon

/-!
# Sums without rounding

A float is what it unpacks to (`Beat.eq_of_unpack_eq`), so finite beats are told apart by their
numbers, but for the zero above and the zero below zero (`Beat.eq_of_value_eq`). Where no sum is
rounded (`Beat.IsExact`), sums of the same numbers are therefore the same beats, in whatever
order they are formed; the zero below zero is no sum but that of itself with itself
(`Beat.not_isMinusZero_add`). A difference is a sum (`Beat.sub_eq_add_neg`).
-/

namespace Downbeat.Beat

open Float.Model (Format UnpackedFloat)
open Float.Model.UnpackedFloat

/-! ## Bits -/

theorem packComponents_unpack (b : BitVec Format.binary64.numBits) :
    packComponents .binary64 (Sign.ofBitVec (unpackSign b)) (unpackExponent b)
      (unpackMantissa b) = b := by
  have hs : (Sign.ofBitVec (unpackSign b)).toBitVec = unpackSign b := by
    generalize unpackSign b = s
    revert s
    decide
  rw [packComponents, hs]
  have hb : b.toNat < 2 ^ 64 := b.isLt
  apply BitVec.eq_of_toNat_eq
  rw [BitVec.toNat_append, BitVec.toNat_append, ← Nat.shiftLeft_add_eq_or_of_lt (BitVec.isLt _),
    ← Nat.shiftLeft_add_eq_or_of_lt (BitVec.isLt _)]
  simp only [unpackSign, unpackExponent, unpackMantissa, BitVec.toNat_cast,
    BitVec.extractLsb_toNat, Nat.shiftLeft_eq, Nat.shiftRight_eq_div_pow]
  show (_ / 2 ^ 63 % 2 ^ 1 * 2 ^ 11 + _ / 2 ^ 52 % 2 ^ 11) * 2 ^ 52 + b.toNat / 2 ^ 0 % 2 ^ 52 = _
  omega

theorem pack_subnormal (s : Sign) {m : BitVec Format.binary64.mantissaBitsWithoutImplicit}
    (hm : 0 < m.toNat) :
    pack .binary64 (.finite s m.toNat (-1074) hm) = packComponents .binary64 s 0#_ m := by
  have hlt : m.toNat < 2 ^ 52 := m.isLt
  have hlog : m.toNat.log2 + 1 ≠ Format.binary64.mantissaBits := by
    have := (Nat.log2_lt hm.ne').2 hlt
    show _ ≠ 53
    omega
  rw [pack]
  simp only [biased_eq]
  rw [if_neg (by decide), if_neg hlog, BitVec.ofNat_toNat, BitVec.setWidth_eq]

theorem pack_normal (s : Sign) {e : BitVec Format.binary64.exponentBits}
    {m : BitVec Format.binary64.mantissaBitsWithoutImplicit} {x : ℤ} (hx : x = e.toNat - 1075)
    (hinf : e ≠ -1#_) (hm : 0 < (1#1 ++ m).toNat) :
    pack .binary64 (.finite s (1#1 ++ m).toNat x hm) = packComponents .binary64 s e m := by
  have hlt : m.toNat < 2 ^ 52 := m.isLt
  have hfull : (1#1 ++ m).toNat = 2 ^ 52 + m.toNat := by
    rw [BitVec.toNat_append, ← Nat.shiftLeft_add_eq_or_of_lt m.isLt]
    rfl
  have hlog : (1#1 ++ m).toNat.log2 + 1 = Format.binary64.mantissaBits := by
    rw [(Nat.log2_eq_iff (k := 52) hm.ne').2 ⟨by omega, by omega⟩]
    rfl
  have hmantissa :
      BitVec.ofNat Format.binary64.mantissaBitsWithoutImplicit (1#1 ++ m).toNat = m := by
    refine BitVec.eq_of_toNat_eq ?_
    rw [BitVec.toNat_ofNat, hfull]
    show (2 ^ 52 + m.toNat) % 2 ^ 52 = _
    omega
  have hsmall : ¬2 ^ Format.binary64.exponentBits ≤ e.toNat + 1 := by
    have hlt : e.toNat < 2 ^ 11 := e.isLt
    have hne : e.toNat ≠ 2047 := fun hones => hinf (BitVec.eq_of_toNat_eq hones)
    show ¬2 ^ 11 ≤ _
    omega
  have hbiased : (x + 1075).toNat = e.toNat := by
    omega
  rw [pack]
  simp only [biased_eq, hbiased]
  rw [if_neg hsmall, if_pos hlog, hmantissa, BitVec.ofNat_toNat, BitVec.setWidth_eq]

theorem pack_unpack_bits {b : BitVec Format.binary64.numBits} (hb : Format.binary64.Valid b) :
    pack .binary64 (unpack .binary64 b) = b := by
  have hparts := packComponents_unpack b
  have hbias := exponentBias_eq
  have hbits : (Format.binary64.mantissaBitsWithoutImplicit : ℤ) = 52 := by decide
  rw [unpack]
  by_cases hinf : unpackExponent b = -1#_
  · rw [if_pos hinf]
    by_cases hm : unpackMantissa b = 0#_
    · rw [if_pos hm]
      rw [hinf, hm] at hparts
      exact hparts
    · rw [if_neg hm]
      exact (hb.eq_packedNaN hinf hm).symm
  · rw [if_neg hinf]
    by_cases hzero : unpackExponent b = 0#_
    · rw [if_pos hzero]
      by_cases hm : unpackMantissa b = 0#_
      · rw [dif_pos hm]
        rw [hzero, hm] at hparts
        exact hparts
      · rw [dif_neg hm]
        rw [hzero] at hparts ⊢
        exact (pack_subnormal _ _).trans hparts
    · rw [if_neg hzero]
      exact (pack_normal _ (by omega) hinf _).trans hparts

/-- Packing what has been unpacked gives it back. -/
theorem pack_unpack (x : Float.Model) : Float.Model.pack x.unpack = x := by
  obtain ⟨⟨b⟩, hvalid⟩ := x
  simp only [Float.Model.pack, Float.Model.unpack]
  congr 1
  exact congrArg UInt64.ofBitVec (pack_unpack_bits hvalid)

theorem eq_of_unpack_eq {a b : Beat} (h : a.toModel.unpack = b.toModel.unpack) : a = b := by
  have hmodel : a.toModel = b.toModel := by rw [← pack_unpack a.toModel, h, pack_unpack]
  cases a
  cases b
  exact congrArg Float.ofModel hmodel

/-! ## Numbers -/

theorem eq_of_number_eq {u v : UnpackedFloat} (hu : IsCanonical u) (hv : IsCanonical v)
    (hne : number u ≠ 0) (h : number u = number v) : u = v := by
  cases u with
  | finite s m e hm =>
    cases v with
    | finite t n f hn =>
      have hsign : s = t := by
        cases s <;> cases t
        · rfl
        · exact absurd h ((number_negative_neg e hm).trans (number_positive_pos f hn)).ne
        · exact absurd h ((number_negative_neg f hn).trans (number_positive_pos e hm)).ne'
        · rfl
      subst hsign
      have hmagnitudes : (m : ℚ) * 2 ^ e = n * 2 ^ f := by
        cases s
        · rw [number_negative, number_negative] at h
          exact neg_inj.1 h
        · rw [number_positive, number_positive] at h
          exact h
      have hcompare := compare_magnitudes hu hv
      rw [compare_eq_iff_eq.2 hmagnitudes, Ordering.then_eq_eq, compare_eq_iff_eq,
        compare_eq_iff_eq] at hcompare
      obtain ⟨rfl, rfl⟩ := hcompare
      rfl
    | _ => exact absurd h hne
  | _ => exact absurd rfl hne

/-- The zero below zero. -/
def IsMinusZero (b : Beat) : Prop := b.toModel.unpack = .zero .negative

instance (b : Beat) : Decidable (IsMinusZero b) :=
  match h : b.toModel.unpack with
  | .zero .negative => isTrue h
  | .zero .positive | .finite .. | .infinity _ | .notANumber =>
    isFalse fun hzero => nomatch h.symm.trans hzero

theorem unpack_of_value_eq_zero {b : Beat} (hb : b.isFinite = true) (hsign : ¬IsMinusZero b)
    (h : value b = 0) : b.toModel.unpack = .zero .positive := by
  have hfin : b.toModel.unpack.isFinite = true := hb
  rw [value] at h
  rw [IsMinusZero] at hsign
  cases hu : b.toModel.unpack with
  | zero s =>
    cases s
    · exact absurd hu hsign
    · rfl
  | finite s m e hm =>
    rw [hu] at h
    cases s
    · exact absurd h (number_negative_neg e hm).ne
    · exact absurd h (number_positive_pos e hm).ne'
  | _ =>
    rw [hu] at hfin
    cases hfin

/-- Finite beats are told apart by their numbers, but for the two zeros. -/
theorem eq_of_value_eq {a b : Beat} (ha : a.isFinite = true) (hb : b.isFinite = true)
    (hsign : ¬IsMinusZero a) (hsign' : ¬IsMinusZero b) (h : value a = value b) : a = b := by
  refine eq_of_unpack_eq ?_
  by_cases hzero : value a = 0
  · rw [unpack_of_value_eq_zero ha hsign hzero, unpack_of_value_eq_zero hb hsign' (h ▸ hzero)]
  · exact eq_of_number_eq (isCanonical_unpack a) (isCanonical_unpack b) hzero h

theorem not_isMinusZero_of_value_ne_zero {b : Beat} (h : value b ≠ 0) : ¬IsMinusZero b := by
  intro hminus
  rw [value, hminus] at h
  exact h rfl

/-! ## Differences -/

theorem apply_neg (s : Sign) (n : ℤ) : (-s).apply n = -s.apply n := by
  cases s
  · exact (neg_neg n).symm
  · rfl

theorem isCanonical_neg {u : UnpackedFloat} (h : IsCanonical u) : IsCanonical u.neg := by
  cases u with
  | finite s m e hm => exact h
  | _ => trivial

theorem unpack_neg (b : Beat) : (-b).toModel.unpack = b.toModel.unpack.neg := by
  have hpack : (-b).toModel.unpack = bounded b.toModel.unpack.neg :=
    unpack_pack (isCanonical_neg (isCanonical_unpack b))
  rw [hpack]
  cases h : b.toModel.unpack with
  | finite s m e hm => exact if_pos (exponent_le_of_unpack h)
  | _ => rfl

theorem sub_eq_add_neg (a b : Beat) : a - b = a + -b := by
  have hsub : ∀ u v : UnpackedFloat, sub .binary64 u v = add .binary64 u v.neg := by
    intro u v
    cases u <;> cases v <;> simp only [sub, add, neg, apply_neg, Int.sub_eq_add_neg]
  show Float.ofModel (.pack (sub .binary64 a.toModel.unpack b.toModel.unpack)) =
    Float.ofModel (.pack (add .binary64 a.toModel.unpack (-b).toModel.unpack))
  rw [hsub, unpack_neg]

theorem isFinite_neg {b : Beat} : (-b).isFinite = b.isFinite := by
  show (-b).toModel.unpack.isFinite = b.toModel.unpack.isFinite
  rw [unpack_neg]
  cases b.toModel.unpack <;> rfl

theorem value_neg (b : Beat) : value (-b) = -value b := by
  rw [value, value, unpack_neg]
  cases b.toModel.unpack with
  | finite s m e hm =>
    cases s
    · show number (.finite .positive m e hm) = _
      rw [number_positive, number_negative, neg_neg]
    · show number (.finite .negative m e hm) = _
      rw [number_positive, number_negative]
  | _ => exact neg_zero.symm

/-! ## Sums that are not rounded -/

protected theorem add_comm (a b : Beat) : a + b = b + a := by
  have hadd : ∀ u v : UnpackedFloat, add .binary64 u v = add .binary64 v u := by
    intro u v
    cases u with
    | finite s m e hm =>
      cases v with
      | finite t n f hn =>
        show UnpackedFloat.normalize .binary64 (s.apply ((decreaseExponent m e (min e f)).1 : ℤ) +
            t.apply ((decreaseExponent n f (min e f)).1 : ℤ)) (min e f) .positive =
          UnpackedFloat.normalize .binary64 (t.apply ((decreaseExponent n f (min f e)).1 : ℤ) +
            s.apply ((decreaseExponent m e (min f e)).1 : ℤ)) (min f e) .positive
        rw [min_comm f e, Int.add_comm]
      | _ => rfl
    | infinity s =>
      cases v with
      | infinity t => cases s <;> cases t <;> rfl
      | _ => rfl
    | zero s =>
      cases v with
      | zero t => cases s <;> cases t <;> rfl
      | _ => rfl
    | notANumber => cases v <;> rfl
  show Float.ofModel (.pack (add .binary64 a.toModel.unpack b.toModel.unpack)) =
    Float.ofModel (.pack (add .binary64 b.toModel.unpack a.toModel.unpack))
  rw [hadd]

/-- The sum of two finite beats is not rounded. -/
def IsExact (a b : Beat) : Prop :=
  a.isFinite = true ∧ b.isFinite = true ∧ value (a + b) = value a + value b

instance (a b : Beat) : Decidable (IsExact a b) :=
  inferInstanceAs (Decidable (_ ∧ _ ∧ _))

/-- A sum that some beat stands for is not rounded. -/
theorem isExact_of_value_eq {a b c : Beat} (ha : a.isFinite = true) (hb : b.isFinite = true)
    (h : value c = value a + value b) : IsExact a b := by
  refine ⟨ha, hb, ?_⟩
  rw [(value_add_of_eq ha hb h.symm (isDouble_value c) (abs_value_lt c)).2, h]

theorem unpack_add {a b : Beat} (ha : a.isFinite = true) (hb : b.isFinite = true) :
    (a + b).toModel.unpack = bounded (add .binary64 a.toModel.unpack b.toModel.unpack) :=
  unpack_pack (stands_add (isCanonical_unpack a) (isCanonical_unpack b) ha hb).isCanonical

theorem number_finite_ne_zero (s : Sign) {m : ℕ} (e : ℤ) (hm : 0 < m) :
    number (.finite s m e hm) ≠ 0 := by
  cases s
  · exact (number_negative_neg e hm).ne
  · exact (number_positive_pos e hm).ne'

/-- The float of a sum that is zero. -/
theorem add_of_sum_eq_zero {u v : UnpackedFloat} (hu : u.isFinite = true) (hv : v.isFinite = true)
    (hsum : number u + number v = 0) (hsign : u ≠ .zero .negative ∨ v ≠ .zero .negative) :
    add .binary64 u v = .zero .positive := by
  cases u with
  | notANumber => cases hu
  | infinity s => cases hu
  | zero s =>
    cases v with
    | notANumber => cases hv
    | infinity t => cases hv
    | zero t => cases s <;> cases t <;> simp_all [add]
    | finite t n f hn =>
      have hzero : number (.zero s) = 0 := rfl
      rw [hzero, zero_add] at hsum
      exact absurd hsum (number_finite_ne_zero t f hn)
  | finite s m e hm =>
    cases v with
    | notANumber => cases hv
    | infinity t => cases hv
    | zero t =>
      have hzero : number (.zero t) = 0 := rfl
      rw [hzero, add_zero] at hsum
      exact absurd hsum (number_finite_ne_zero s e hm)
    | finite t n f hn =>
      rw [number_add_number] at hsum
      have hmantissa : s.apply ((decreaseExponent m e (min e f)).1 : ℤ) +
          t.apply ((decreaseExponent n f (min e f)).1 : ℤ) = 0 := by
        have := (mul_eq_zero.1 hsum).resolve_right (two_zpow_pos _).ne'
        exact_mod_cast this
      show UnpackedFloat.normalize .binary64 (s.apply ((decreaseExponent m e (min e f)).1 : ℤ) +
        t.apply ((decreaseExponent n f (min e f)).1 : ℤ)) (min e f) .positive = _
      rw [hmantissa]
      rfl

namespace IsExact

variable {a b : Beat}

theorem value_eq (h : IsExact a b) : value (a + b) = value a + value b := h.2.2

theorem isFinite (h : IsExact a b) : (a + b).isFinite = true := by
  obtain ⟨ha, hb, hvalue⟩ := h
  obtain ⟨hnan, hplace⟩ := place_add ha hb
  rcases isFinite_or_unpack_eq hnan with hfin | ⟨s, hs⟩
  · exact hfin
  · -- an infinite beat has no number, so the sum would be that of two opposite beats
    have hzero : value (a + b) = 0 := by
      rw [value, hs]
      rfl
    rw [← hvalue, hzero, nearest_zero, inRange_of_abs_lt (by rw [abs_zero]; exact two_zpow_pos _)]
      at hplace
    exact (isFinite_of_place_eq hnan hplace).1

end IsExact

/-! ## Zeros -/

/-- A sum is finite only if both of its parts are. -/
theorem isFinite_of_isFinite_add {a b : Beat} (h : (a + b).isFinite = true) :
    a.isFinite = true ∧ b.isFinite = true := by
  have hsum : ∀ u v : UnpackedFloat, ¬(u.isFinite = true ∧ v.isFinite = true) →
      IsCanonical (add .binary64 u v) ∧ (bounded (add .binary64 u v)).isFinite = false := by
    intro u v hnot
    cases u with
    | notANumber => cases v <;> exact ⟨trivial, rfl⟩
    | infinity s =>
      cases v with
      | infinity t => cases s <;> cases t <;> exact ⟨trivial, rfl⟩
      | _ => exact ⟨trivial, rfl⟩
    | _ =>
      cases v with
      | notANumber => exact ⟨trivial, rfl⟩
      | infinity t => exact ⟨trivial, rfl⟩
      | _ => exact absurd ⟨rfl, rfl⟩ hnot
  by_contra hnot
  obtain ⟨hcanonical, hinfinite⟩ := hsum _ _ hnot
  have hfinite :
      (Float.Model.pack (add .binary64 a.toModel.unpack b.toModel.unpack)).unpack.isFinite = true := h
  have hpack : (Float.Model.pack (add .binary64 a.toModel.unpack b.toModel.unpack)).unpack =
      bounded (add .binary64 a.toModel.unpack b.toModel.unpack) := unpack_pack hcanonical
  rw [hpack, hinfinite] at hfinite
  cases hfinite

/-- Doubles, and their sums, are rounded to zero only if they are zero. -/
theorem eq_zero_of_nearest_eq_zero {n : ℤ} (h : nearest (n * 2 ^ (-1074 : ℤ)) = 0) : n = 0 := by
  have hleast := isDouble_two_zpow (e := -1074) (Int.le_refl _)
  have hpos := two_zpow_pos (-1074)
  have hnot : ∀ m : ℤ, nearest (m * 2 ^ (-1074 : ℤ)) = 0 → ¬0 < m := by
    intro m hm hlt
    have hone : (1 : ℚ) ≤ m := by exact_mod_cast hlt
    have hle := le_nearest hleast (le_mul_of_one_le_left hpos.le hone)
    rw [hm] at hle
    exact absurd hle (not_le.2 hpos)
  have hneg : nearest ((-n : ℤ) * 2 ^ (-1074 : ℤ)) = 0 := by
    rw [Int.cast_neg, neg_mul, nearest_neg, h, neg_zero]
  have := hnot n h
  have := hnot (-n) hneg
  omega

/-- The zero below zero is no sum but that of itself with itself. -/
theorem not_isMinusZero_add {a b : Beat} (hsign : ¬IsMinusZero a ∨ ¬IsMinusZero b) :
    ¬IsMinusZero (a + b) := by
  intro hminus
  have hfin : (a + b).isFinite = true := by
    show (a + b).toModel.unpack.isFinite = true
    rw [hminus]
    rfl
  obtain ⟨ha, hb⟩ := isFinite_of_isFinite_add hfin
  rw [IsMinusZero, unpack_add ha hb] at hminus
  have hstands := stands_add (isCanonical_unpack a) (isCanonical_unpack b) ha hb
  have hnumber : number (add .binary64 a.toModel.unpack b.toModel.unpack) = 0 := by
    cases hu : add .binary64 a.toModel.unpack b.toModel.unpack with
    | finite s m e hm =>
      by_cases he : e ≤ 971 <;> simp [hu, bounded, he] at hminus
    | _ => rfl
  have hzero : value a + value b = 0 := by
    obtain ⟨m, hm⟩ := exists_eq_mul_of_isDouble (isDouble_value a)
    obtain ⟨n, hn⟩ := exists_eq_mul_of_isDouble (isDouble_value b)
    have hsum : value a + value b = (m + n : ℤ) * 2 ^ (-1074 : ℤ) := by
      rw [hm, hn, Int.cast_add, add_mul]
    rw [hstands.number_eq] at hnumber
    have hnearest : nearest ((m + n : ℤ) * 2 ^ (-1074 : ℤ)) = 0 := hsum ▸ hnumber
    rw [hsum, eq_zero_of_nearest_eq_zero hnearest, Int.cast_zero, zero_mul]
  rw [add_of_sum_eq_zero ha hb hzero hsign] at hminus
  cases hminus

/-- A zero is lost in a sum, unless both are below zero. -/
theorem add_of_unpack_eq_zero {z b : Beat} {s : Sign} (hz : z.toModel.unpack = .zero s)
    (hb : ¬IsMinusZero b) : z + b = b := by
  have hadd : add .binary64 (.zero s) b.toModel.unpack = b.toModel.unpack := by
    cases hu : b.toModel.unpack with
    | zero t =>
      cases t
      · exact absurd hu hb
      · cases s <;> rfl
    | _ => rfl
  show Float.ofModel (.pack (add .binary64 z.toModel.unpack b.toModel.unpack)) = b
  rw [hz, hadd, pack_unpack]

theorem unpack_zero : (0 : Beat).toModel.unpack = .zero .positive := by rfl

theorem zero_add_add (b : Beat) {x : Beat} (hx : ¬IsMinusZero x) : 0 + b + x = b + x := by
  by_cases hb : IsMinusZero b
  · have hsum : (0 + b).toModel.unpack = .zero .positive := by
      have hfin : b.isFinite = true := by
        show b.toModel.unpack.isFinite = true
        rw [hb]
        rfl
      rw [unpack_add isFinite_zero hfin, unpack_zero, hb]
      rfl
    rw [add_of_unpack_eq_zero hsum hx, add_of_unpack_eq_zero hb hx]
  · rw [add_of_unpack_eq_zero unpack_zero hb]

end Downbeat.Beat
