import Downbeat.Proofs.Beat.Upward
import Downbeat.Proofs.Script.Tidy

/-!
# Where a script stands

A script stands at its start plus its time (`Script.position`). While the start is finite and the
time has not gone back (`Script.IsSound`), this is a beat on the line or at its upper end, and no
entry takes it back, however the sums are rounded (`Script.Pass.position_le_after`). So a script
never goes back (`Script.Leads.isSound`).
-/

set_option linter.unusedSectionVars false

namespace Downbeat

variable {ε φ : Type}

theorem Entry.isValidRest_of_rest? {e : Entry ε φ} {d : Beat} (h : e.rest? = some d) :
    e = .rest d ∧ Script.IsValidRest d := by
  cases e with
  | rest d' =>
    by_cases hd : Script.IsValidRest d'
    · obtain rfl : d' = d := by simpa [Entry.rest?, hd] using h
      exact ⟨rfl, hd⟩
    · simp [Entry.rest?, hd] at h
  | _ => cases h

namespace Script

theorem zero_le_of_isValidRest {d : Beat} (h : IsValidRest d) : 0 ≤ d := by
  obtain ⟨hnan, hneg⟩ := not_or.1 h
  by_contra hlt
  exact hneg ((Beat.not_le_iff (by decide) (eq_false_of_ne_true hnan)).1 hlt)

/-- The beat at which the script stands. -/
def position (s : Script ε φ) : Beat := s.start + s.internal

/-- The script has a start, and its time has not gone back. -/
structure IsSound (s : Script ε φ) : Prop where
  start : s.start.isFinite = true
  internal : 0 ≤ s.internal

theorem IsSound.isUpward {s : Script ε φ} (h : s.IsSound) : Beat.IsUpward s.position :=
  Beat.IsUpward.add (.inl h.start) h.internal

/-- Getting to an entry moves no clock. -/
theorem clocks_of_reach {s left : Script ε φ} {e : Entry ε φ} (h : s.reach = some (e, left)) :
    left.start = s.start ∧ left.runahead = s.runahead ∧ left.clocks = s.clocks := by
  obtain ⟨queue, -, rfl⟩ := reach_eq_some_iff.1 h
  exact ⟨rfl, rfl, rfl⟩

theorem IsSound.of_reach {s left : Script ε φ} {e : Entry ε φ} (hs : s.IsSound)
    (h : s.reach = some (e, left)) : left.IsSound ∧ left.position = s.position := by
  obtain ⟨hstart, -, hclocks⟩ := clocks_of_reach h
  obtain ⟨hinternal, -⟩ := Prod.mk.inj hclocks
  rw [position, position, hstart, hinternal]
  exact ⟨⟨hstart ▸ hs.start, hinternal ▸ hs.internal⟩, rfl⟩

variable [Placed ε] [Subroutine φ ε] [Described φ]

/-! ## One entry -/

namespace Pass

variable {p : Pass ε φ} {d : Beat}

theorem after_of_rest? (h : p.entry.rest? = some d) : p.after =
    { p.script with
      restUntil := p.script.position + d - p.script.runahead
      internal := p.script.internal + d } := by
  obtain ⟨hentry, hd⟩ := Entry.isValidRest_of_rest? h
  simp only [after, done, hentry, consume, if_pos hd]
  rfl

theorem clocks_after_of_rest?_eq_none (h : p.entry.rest? = none) :
    p.after.internal = p.script.internal ∧ p.after.restUntil = p.script.restUntil := by
  have hclocks := p.clocks_after
  rw [clocks?, h] at hclocks
  exact Prod.mk.inj hclocks

theorem make_after (p : Pass ε φ) :
    p.after.start = p.script.start ∧ p.after.runahead = p.script.runahead := by
  rw [after, done]
  cases h : consume p.now p.script p.entry with
  | error f => exact ⟨rfl, rfl⟩
  | ok r =>
    have hsame := sameMake_of_consume h
    exact ⟨hsame.start, hsame.runahead⟩

theorem internal_le_after (h : p.script.IsSound) : p.script.internal ≤ p.after.internal := by
  cases hrest : p.entry.rest? with
  | none =>
    rw [(clocks_after_of_rest?_eq_none hrest).1]
    exact Beat.le_refl (Beat.isUpward_of_zero_le h.internal).isNaN
  | some d =>
    rw [after_of_rest? hrest]
    exact (Beat.isUpward_of_zero_le h.internal).le_add
      (zero_le_of_isValidRest (Entry.isValidRest_of_rest? hrest).2)

theorem isSound_after (h : p.script.IsSound) : p.after.IsSound where
  start := p.make_after.1 ▸ h.start
  internal := Beat.le_trans h.internal (internal_le_after h)

/-- An entry does not take a script back. -/
theorem position_le_after (h : p.script.IsSound) : p.script.position ≤ p.after.position := by
  rw [position, position, p.make_after.1]
  exact Beat.add_le_add_left h.start (internal_le_after h)

end Pass

theorem Leads.runahead_eq {s t : Script ε φ} {ps : List (Pass ε φ)} (h : Leads s ps t) :
    t.runahead = s.runahead ∧ ∀ p ∈ ps, p.script.runahead = s.runahead := by
  induction h with
  | refl => exact ⟨rfl, nofun⟩
  | putBack => exact ⟨rfl, nofun⟩
  | pass _ reach _ ih =>
    obtain ⟨-, hleft, -⟩ := clocks_of_reach reach
    obtain ⟨ht, hps⟩ := ih
    rw [(Pass.make_after _).2, hleft] at ht hps
    exact ⟨ht, List.forall_mem_cons.2 ⟨hleft, hps⟩⟩

/-- Along a chain a script does not go back. -/
theorem Leads.isSound {s t : Script ε φ} {ps : List (Pass ε φ)} (h : Leads s ps t)
    (hs : s.IsSound) : t.IsSound ∧ s.position ≤ t.position ∧ ∀ p ∈ ps, p.script.IsSound := by
  induction h with
  | refl =>
    have hrefl := Beat.le_refl hs.isUpward.isNaN
    exact ⟨hs, hrefl, nofun⟩
  | putBack =>
    have hrefl := Beat.le_refl hs.isUpward.isNaN
    exact ⟨⟨hs.start, hs.internal⟩, hrefl, nofun⟩
  | @pass s left t e now ps _ reach _ ih =>
    obtain ⟨hleft, hposition⟩ := hs.of_reach reach
    obtain ⟨ht, hle, hps⟩ := ih (Pass.isSound_after hleft)
    have hstep := Pass.position_le_after (p := ⟨left, now, e⟩) hleft
    rw [← hposition]
    exact ⟨ht, Beat.le_trans hstep hle, List.forall_mem_cons.2 ⟨hleft, hps⟩⟩

end Script

end Downbeat
