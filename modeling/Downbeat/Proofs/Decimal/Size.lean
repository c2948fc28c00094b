import Downbeat.Decimal.Layout
import Downbeat.Proofs.Beat.Exact

/-!
# The size of a double

The size that is read off the bits of a finite double is the one that it unpacks to
(`Magnitude.ofFloat_of_unpack`), and so is its sign (`isNegative_of_unpack`).
-/

namespace Downbeat.Decimal

open Float.Model (Format UnpackedFloat)
open Float.Model.UnpackedFloat

/-! ## Parts of the bits -/

theorem toNat_fraction (w : UInt64) : (w &&& 0xfffffffffffff).toNat = w.toNat % 2 ^ 52 := by
  rw [UInt64.toNat_and]
  exact Nat.and_two_pow_sub_one_eq_mod w.toNat 52

theorem toNat_exponent (w : UInt64) : ((w >>> 52) &&& 0x7ff).toNat = w.toNat / 2 ^ 52 % 2 ^ 11 := by
  rw [UInt64.toNat_and, UInt64.toNat_shiftRight]
  show (w.toNat >>> 52) &&& (2 ^ 11 - 1) = _
  rw [Nat.and_two_pow_sub_one_eq_mod, Nat.shiftRight_eq_div_pow]

theorem toNat_unpackMantissa (b : BitVec Format.binary64.numBits) :
    (unpackMantissa b).toNat = b.toNat % 2 ^ 52 := by
  simp only [unpackMantissa, BitVec.toNat_cast, BitVec.extractLsb_toNat]
  rfl

theorem toNat_unpackExponent (b : BitVec Format.binary64.numBits) :
    (unpackExponent b).toNat = b.toNat / 2 ^ 52 % 2 ^ 11 := by
  simp only [unpackExponent, BitVec.toNat_cast, BitVec.extractLsb_toNat, Nat.shiftRight_eq_div_pow]

theorem toNat_unpackSign (b : BitVec Format.binary64.numBits) :
    (unpackSign b).toNat = b.toNat / 2 ^ 63 % 2 := by
  simp only [unpackSign, BitVec.toNat_cast, BitVec.extractLsb_toNat, Nat.shiftRight_eq_div_pow]

/-! ## Sizes -/

/-- The size of a double whose bits have the two parts. -/
def Magnitude.ofParts (fraction exponent : ℕ) : Magnitude :=
  if exponent = 0 then ⟨fraction, -1074, false⟩
  else ⟨2 ^ 52 + fraction, (exponent : ℤ) - 1075, fraction == 0 && 1 < exponent⟩

namespace Magnitude

theorem ofFloat_eq (x : Float) : ofFloat x =
    ofParts (@unpackMantissa .binary64 x.toBits.toBitVec).toNat
      (@unpackExponent .binary64 x.toBits.toBitVec).toNat := by
  rw [ofFloat, toNat_fraction, toNat_exponent, toNat_unpackMantissa, toNat_unpackExponent]
  rfl

theorem ofFloat_of_unpack {x : Float} {s : Sign} {m : ℕ} {e : ℤ} {hm : 0 < m}
    (h : x.toModel.unpack = .finite s m e hm) :
    ofFloat x = ⟨m, e, decide (m = 2 ^ 52 ∧ -1074 < e)⟩ := by
  have hbias := Beat.exponentBias_eq
  rw [ofFloat_eq]
  unfold Float.Model.unpack unpack at h
  extract_lets mantissa biased exponent at h
  show ofParts mantissa.toNat biased.toNat = _
  have hfull : (1#1 ++ mantissa).toNat = 2 ^ 52 + mantissa.toNat := by
    rw [BitVec.toNat_append, ← Nat.shiftLeft_add_eq_or_of_lt mantissa.isLt]
    rfl
  have hlt : mantissa.toNat < 2 ^ 52 := mantissa.isLt
  have hexponent : exponent = biased.toNat - (1023 + 52) := by
    rw [← hbias]
    rfl
  rw [ofParts]
  split_ifs at h with hinf hm' hzero hm'
  · obtain ⟨-, hmantissa, he⟩ := UnpackedFloat.finite.inj h
    have hnone : biased.toNat = 0 := by rw [hzero]; rfl
    have hshort : ¬(m = 2 ^ 52 ∧ -1074 < e) := by omega
    rw [if_pos hnone, decide_eq_false hshort, ← hmantissa, show e = -1074 by omega]
  · obtain ⟨-, hmantissa, he⟩ := UnpackedFloat.finite.inj h
    have hsome : biased.toNat ≠ 0 := fun hnone => hzero (BitVec.eq_of_toNat_eq hnone)
    have hleans : (mantissa.toNat == 0 && decide (1 < biased.toNat)) =
        decide (m = 2 ^ 52 ∧ -1074 < e) := by
      rw [Bool.eq_iff_iff]
      simp only [Bool.and_eq_true, beq_iff_eq, decide_eq_true_eq]
      omega
    rw [if_neg hsome, hleans, ← hfull, hmantissa, show e = (biased.toNat : ℤ) - 1075 by omega]

theorem mantissa_of_unpack_zero {x : Float} {s : Sign} (h : x.toModel.unpack = .zero s) :
    (ofFloat x).mantissa = 0 := by
  rw [ofFloat_eq]
  unfold Float.Model.unpack unpack at h
  extract_lets mantissa biased exponent at h
  show (ofParts mantissa.toNat biased.toNat).mantissa = 0
  split_ifs at h with hinf hm hzero hm'
  rw [hzero, hm']
  rfl

end Magnitude

/-! ## Signs -/

theorem ofBitVec_eq_negative_iff (v : BitVec 1) : Sign.ofBitVec v = .negative ↔ v.toNat = 1 := by
  rcases BitVec.eq_zero_or_eq_one v with rfl | rfl
  · exact ⟨nofun, nofun⟩
  · exact ⟨fun _ => rfl, fun _ => rfl⟩

theorem isNegative_iff (x : Float) : isNegative x = true ↔
    Sign.ofBitVec (@unpackSign .binary64 x.toBits.toBitVec) = .negative := by
  have hx : x.toBits.toNat < 2 ^ 64 := x.toBits.toNat_lt
  rw [isNegative, beq_iff_eq, ofBitVec_eq_negative_iff, toNat_unpackSign, ← UInt64.toNat_inj,
    UInt64.toNat_shiftRight]
  show x.toBits.toNat >>> 63 = 1 ↔ x.toBits.toNat / 2 ^ 63 % 2 = 1
  rw [Nat.shiftRight_eq_div_pow]
  omega

theorem isNegative_of_unpack {x : Float} {s : Sign} {m : ℕ} {e : ℤ} {hm : 0 < m}
    (h : x.toModel.unpack = .finite s m e hm) : isNegative x = true ↔ s = .negative := by
  have hs : Sign.ofBitVec (@unpackSign .binary64 x.toBits.toBitVec) = s := by
    unfold Float.Model.unpack unpack at h
    extract_lets mantissa biased exponent signVec sign at h
    show sign = s
    split_ifs at h
    · exact (UnpackedFloat.finite.inj h).1
    · exact (UnpackedFloat.finite.inj h).1
  rw [isNegative_iff, hs]

theorem isNegative_of_unpack_zero {x : Float} {s : Sign} (h : x.toModel.unpack = .zero s) :
    isNegative x = true ↔ s = .negative := by
  have hs : Sign.ofBitVec (@unpackSign .binary64 x.toBits.toBitVec) = s := by
    unfold Float.Model.unpack unpack at h
    extract_lets mantissa biased exponent signVec sign at h
    show sign = s
    split_ifs at h
    exact UnpackedFloat.zero.inj h
  rw [isNegative_iff, hs]

end Downbeat.Decimal
