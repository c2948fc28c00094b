import Downbeat.Proofs.Beat.Exact

/-!
# Sums and the order of beats

A sum of beats grows with its parts, however it is rounded and also where it gets out of range
(`Beat.add_le_add_left`). A beat that is finite or at the upper end of the line is still one of these
after a step that does not go back (`Beat.IsUpward.add`), and such a step does not lead to an earlier
beat (`Beat.IsUpward.le_add`).
-/

namespace Downbeat.Beat

variable {a a' b d : Beat}

/-! ## The parts of a sum -/

theorem eq_inf_of_unpack_eq (h : b.toModel.unpack = .infinity .positive) : b = 1 / 0 :=
  eq_of_unpack_eq (h.trans (by rfl))

theorem place_add_of_infinity {s : Float.Model.UnpackedFloat.Sign} (hb : b.isFinite = true)
    (ha : a.toModel.unpack = .infinity s) : place (b + a) = rank (.infinity s) := by
  rw [place, unpack_add_of_infinity hb ha]

/-- A greater beat added to a finite one makes no lesser sum. -/
protected theorem add_le_add_left (hb : b.isFinite = true) (h : a ≤ a') : b + a ≤ b + a' := by
  obtain ⟨ha, ha', hle⟩ := le_iff.1 h
  refine le_iff.2 ⟨isNaN_add hb ha, isNaN_add hb ha', ?_⟩
  rcases isFinite_or_unpack_eq ha with hfin | ⟨s, hs⟩
  · rcases isFinite_or_unpack_eq ha' with hfin' | ⟨s', hs'⟩
    · rw [le_iff_value hfin hfin'] at h
      rw [(place_add hb hfin).2, (place_add hb hfin').2]
      exact inRange_mono (nearest_mono (add_le_add le_rfl h))
    · rw [place_add_of_infinity hb hs']
      cases s' with
      | positive => exact le_top
      | negative =>
        rw [place_of_isFinite hfin, place, hs'] at hle
        exact absurd hle (WithBot.bot_lt_coe _).not_ge
  · rw [place_add_of_infinity hb hs]
    cases s with
    | negative => exact bot_le
    | positive =>
      rw [place, hs] at hle
      rcases isFinite_or_unpack_eq ha' with hfin' | ⟨s', hs'⟩
      · rw [place_of_isFinite hfin', rank, WithBot.coe_le_coe, top_le_iff] at hle
        exact absurd hle (WithTop.coe_ne_top)
      · rw [place, hs'] at hle
        rwa [place_add_of_infinity hb hs']

protected theorem add_le_add_right (hb : b.isFinite = true) (h : a ≤ a') : a + b ≤ a' + b := by
  rw [Beat.add_comm a, Beat.add_comm a']
  exact Beat.add_le_add_left hb h

/-- A number added to a greater finite beat makes no lesser sum. -/
theorem add_le_add_of_isFinite (ha : a.isFinite = true) (ha' : a'.isFinite = true)
    (hb : b.isNaN = false) (h : a ≤ a') : a + b ≤ a' + b := by
  rcases isFinite_or_unpack_eq hb with hfin | ⟨s, hs⟩
  · exact Beat.add_le_add_right hfin h
  · refine le_iff.2 ⟨isNaN_add ha hb, isNaN_add ha' hb, le_of_eq ?_⟩
    rw [place_add_of_infinity ha hs, place_add_of_infinity ha' hs]

protected theorem sub_le_sub_right (hb : b.isFinite = true) (h : a ≤ a') : a - b ≤ a' - b := by
  rw [sub_eq_add_neg, sub_eq_add_neg]
  exact Beat.add_le_add_right (isFinite_neg.trans hb) h

/-! ## Steps that do not go back -/

/-- The beat is finite or at the upper end of the line. -/
def IsUpward (b : Beat) : Prop := b.isFinite = true ∨ b = 1 / 0

theorem isUpward_of_zero_le (h : 0 ≤ b) : IsUpward b :=
  (isFinite_or_unpack_eq_of_zero_le h).imp_right eq_inf_of_unpack_eq

namespace IsUpward

theorem isNaN (h : IsUpward b) : b.isNaN = false := by
  rcases h with hfin | rfl
  · exact isNaN_of_isFinite hfin
  · decide

/-- What is not before such a beat is such a beat. -/
theorem of_le (ha : IsUpward a) (h : a ≤ b) : IsUpward b := by
  obtain ⟨-, hb, hle⟩ := le_iff.1 h
  rcases isFinite_or_unpack_eq hb with hfin | ⟨s, hs⟩
  · exact .inl hfin
  · cases s with
    | positive => exact .inr (eq_inf_of_unpack_eq hs)
    | negative =>
      have hbot : place b = ⊥ := by rw [place, hs, rank]
      rw [hbot, le_bot_iff] at hle
      rcases ha with hfin | rfl
      · rw [place_of_isFinite hfin] at hle
        exact absurd hle (WithBot.coe_ne_bot)
      · rw [place_inf] at hle
        exact absurd hle (WithBot.coe_ne_bot)

/-- The upper end of the line is not left upward. -/
theorem inf_add (hd : IsUpward d) : 1 / 0 + d = 1 / 0 := by
  rcases hd with hfin | rfl
  · rw [Beat.add_comm]
    exact eq_inf_of_unpack_eq (unpack_add_of_infinity hfin (by rfl))
  · decide

theorem add_inf (hd : IsUpward d) : d + 1 / 0 = 1 / 0 := by
  rw [Beat.add_comm]
  exact hd.inf_add

/-- A step that does not go back leads on, or up to the upper end of the line. -/
theorem le_add (ha : IsUpward a) (hd : 0 ≤ d) : a ≤ a + d := by
  have hup := isUpward_of_zero_le hd
  rcases ha with hfin | rfl
  · rcases hup with hdfin | rfl
    · obtain ⟨hnan, hplace⟩ := place_add hfin hdfin
      refine le_iff.2 ⟨isNaN_of_isFinite hfin, hnan, ?_⟩
      rw [hplace, place_of_isFinite hfin, ← inRange_of_abs_lt (abs_value_lt a)]
      exact inRange_mono (le_nearest (isDouble_value a)
        (le_add_of_nonneg_right ((zero_le_iff_value hdfin).1 hd)))
    · rw [add_inf (.inl hfin)]
      exact le_inf (isNaN_of_isFinite hfin)
  · rw [hup.inf_add]
    exact le_inf (by decide)

theorem add_zero_le (ha : IsUpward a) : a + 0 ≤ a := by
  rcases ha with hfin | rfl
  · obtain ⟨hnan, hplace⟩ := place_add hfin isFinite_zero
    refine le_iff.2 ⟨hnan, isNaN_of_isFinite hfin, ?_⟩
    rw [hplace, value_zero, add_zero, nearest_of_isDouble (isDouble_value a),
      inRange_of_abs_lt (abs_value_lt a), place_of_isFinite hfin]
  · decide

/-- A step of no length stays, but for the zero below zero. -/
protected theorem add_zero (ha : IsUpward a) (hsign : ¬IsMinusZero a) : a + 0 = a := by
  rcases ha with hfin | rfl
  · have hsum : value a = value a + value 0 := by simp [value_zero]
    have hexact := isExact_of_value_eq hfin isFinite_zero hsum
    exact eq_of_value_eq hexact.isFinite hfin (not_isMinusZero_add (.inl hsign)) hsign
      (hexact.value_eq.trans hsum.symm)
  · decide

theorem add (ha : IsUpward a) (hd : 0 ≤ d) : IsUpward (a + d) := ha.of_le (ha.le_add hd)

end IsUpward

end Downbeat.Beat
