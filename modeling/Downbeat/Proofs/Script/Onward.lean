import Downbeat.Proofs.Script.Conservation
import Downbeat.Proofs.Script.Position
import Downbeat.Settings

/-!
# The clocks of a checked script

Both clocks of a script are sums that may overflow, and a rest may be of any length. A beat up to
which a script rests that is not a number would hold the script up for ever, since no beat of the
host compares with it. If the script is made from settings that have been checked, this never comes
about (`Script.IsOnward`) : the start is finite, so the position is finite or at the upper end of
the line, where no rest takes it back, and working ahead by finitely many beats leaves a number of
it (`Script.Pass.isOnward_after`).

So from then on the time of the script is a number that is not before zero and does not go back,
and the script rests up to a number, whatever is added to the queue and whenever the script is
drained or stopped (`Script.isTimed_of_check`).
-/

set_option linter.unusedSectionVars false

namespace Downbeat

/-- A finite beat taken from a number leaves a number. -/
theorem Beat.isNaN_sub {a b : Beat} (ha : a.isNaN = false) (hb : b.isFinite = true) :
    (a - b).isNaN = false := by
  rw [Beat.sub_eq_add_neg, Beat.add_comm]
  exact Beat.isNaN_add (Beat.isFinite_neg.trans hb) ha

/-- Settings that are checked have a finite start, and work ahead by finitely many beats. -/
theorem ScriptSettings.isFinite_of_check {c : ScriptSettings} (h : c.check = .ok ()) :
    c.start.isFinite = true ∧ c.runahead.isFinite = true := by
  rw [check] at h
  split at h
  · cases h
  next hstart =>
  split at h
  · cases h
  next hahead =>
  rw [Bool.not_eq_true, Bool.not_eq_false'] at hstart
  rw [Bool.or_eq_true, not_or, Bool.not_eq_true, Bool.not_eq_false'] at hahead
  exact ⟨hstart, hahead.1⟩

namespace Script

variable {ε φ : Type}

/-- Both clocks of the script are numbers, and its time is not before zero. -/
structure IsTimed (s : Script ε φ) : Prop where
  internal : s.internal.isNaN = false
  zero_le : 0 ≤ s.internal
  restUntil : s.restUntil.isNaN = false

/-- The script has a start and works ahead by finitely many beats, its time has not gone back, and
it rests up to a number. -/
structure IsOnward (s : Script ε φ) : Prop extends s.IsSound where
  runahead : s.runahead.isFinite = true
  restUntil : s.restUntil.isNaN = false

namespace IsOnward

theorem isTimed {s : Script ε φ} (h : s.IsOnward) : s.IsTimed where
  internal := (Beat.isUpward_of_zero_le h.internal).isNaN
  zero_le := h.internal
  restUntil := h.restUntil

theorem of_reach {s left : Script ε φ} {e : Entry ε φ} (hs : s.IsOnward)
    (h : s.reach = some (e, left)) : left.IsOnward ∧ left.internal = s.internal := by
  obtain ⟨hstart, hahead, hclocks⟩ := clocks_of_reach h
  obtain ⟨hinternal, hrest⟩ := Prod.mk.inj hclocks
  exact ⟨⟨(hs.toIsSound.of_reach h).1, hahead ▸ hs.runahead, hrest ▸ hs.restUntil⟩, hinternal⟩

end IsOnward

/-- A script that is made from checked settings. -/
theorem isOnward_of_check {c : ScriptSettings} (h : c.check = .ok ()) :
    (c.script : Script ε φ).IsOnward := by
  obtain ⟨hstart, hahead⟩ := c.isFinite_of_check h
  exact
    { start := hstart
      internal := Beat.le_refl (by decide)
      runahead := hahead
      restUntil := Beat.isNaN_sub (Beat.isNaN_of_isFinite hstart) hahead }

variable [Placed ε] [Subroutine φ ε] [Described φ]

/-! ## Along a chain of passes -/

/-- A rest adds a length that is not negative to a position that is finite or at the upper end of
the line, and no other entry moves a clock. -/
theorem Pass.isOnward_after {p : Pass ε φ} (h : p.script.IsOnward) : p.after.IsOnward where
  toIsSound := isSound_after h.toIsSound
  runahead := p.make_after.2 ▸ h.runahead
  restUntil := by
    cases hrest : p.entry.rest? with
    | none =>
      rw [(clocks_after_of_rest?_eq_none hrest).2]
      exact h.restUntil
    | some d =>
      have hd : 0 ≤ d := zero_le_of_isValidRest (Entry.isValidRest_of_rest? hrest).2
      rw [after_of_rest? hrest]
      exact Beat.isNaN_sub (h.isUpward.add hd).isNaN h.runahead

/-- Along a chain the clocks stay numbers, and the time of the script does not go back. -/
theorem Leads.isOnward {s t : Script ε φ} {ps : List (Pass ε φ)} (h : Leads s ps t)
    (hs : s.IsOnward) : t.IsOnward ∧ s.internal ≤ t.internal := by
  induction h with
  | refl => exact ⟨hs, Beat.le_refl hs.isTimed.internal⟩
  | putBack => exact ⟨⟨⟨hs.start, hs.internal⟩, hs.runahead, hs.restUntil⟩,
      Beat.le_refl hs.isTimed.internal⟩
  | @pass s left t e now ps _ reach _ ih =>
    obtain ⟨hleft, hsame⟩ := hs.of_reach reach
    obtain ⟨ht, hle⟩ := ih (Pass.isOnward_after hleft)
    have hstep := Pass.internal_le_after (p := ⟨left, now, e⟩) hleft.toIsSound
    rw [← hsame]
    exact ⟨ht, Beat.le_trans hstep hle⟩

/-- The clocks at a pass of a chain, before and after the entry is worked off. -/
theorem Leads.isOnward_at {s t : Script ε φ} {before later : List (Pass ε φ)} {p : Pass ε φ}
    (h : Leads s (before ++ p :: later) t) (hs : s.IsOnward) :
    p.script.IsOnward ∧ p.after.IsOnward ∧ s.internal ≤ p.script.internal ∧
      p.script.internal ≤ p.after.internal ∧
      ∀ q ∈ later, p.after.internal ≤ q.script.internal := by
  obtain ⟨u, hu, -, hreach, hlater⟩ := h.cut
  obtain ⟨huOnward, hle⟩ := hu.isOnward hs
  obtain ⟨hp, hsame⟩ := huOnward.of_reach hreach
  have hafter := Pass.isOnward_after hp
  refine ⟨hp, hafter, hsame ▸ hle, Pass.internal_le_after hp.toIsSound, ?_⟩
  intro q hq
  obtain ⟨between, rest, rfl⟩ := List.append_of_mem hq
  obtain ⟨v, hv, -, hreach', -⟩ := hlater.cut
  obtain ⟨hvOnward, hle'⟩ := hv.isOnward hafter
  exact (hvOnward.of_reach hreach').2 ▸ hle'

/-! ## Calls -/

/-- A call that does not move the script. -/
theorem isOnward_of_perform {fuel : Nat} {c : Call ε φ} {s t : Script ε φ} {r : Record ε φ}
    (hmove : ∀ b, c ≠ .moveTo b) (h : s.perform fuel c = some (t, r)) (hs : s.IsOnward) :
    t.IsOnward ∧ s.internal ≤ t.internal := by
  cases c with
  | drain now =>
    obtain ⟨_, hdrain, hresult⟩ := Option.map_eq_some_iff.1 h
    obtain ⟨d, hd, rfl⟩ := Option.map_eq_some_iff.1 hdrain
    obtain ⟨rfl, -⟩ := Prod.mk.inj hresult
    exact (leads_of_drainFrom hd).1.isOnward hs
  | moveTo b => exact absurd rfl (hmove b)
  | _ =>
    cases h
    exact ⟨⟨⟨hs.start, hs.internal⟩, hs.runahead, hs.restUntil⟩, Beat.le_refl hs.isTimed.internal⟩

theorem isOnward_of_run {fuel : Nat} {calls : List (Call ε φ)} {s t : Script ε φ}
    {history : List (Record ε φ)} (hmove : ∀ b, .moveTo b ∉ calls)
    (h : s.run fuel calls = some (t, history)) (hs : s.IsOnward) :
    t.IsOnward ∧ s.internal ≤ t.internal := by
  induction calls generalizing s history with
  | nil =>
    cases h
    exact ⟨hs, Beat.le_refl hs.isTimed.internal⟩
  | cons c calls ih =>
    obtain ⟨u, r, rest, hu, hrest, rfl⟩ := run_cons h
    simp only [List.mem_cons, not_or] at hmove
    obtain ⟨huOnward, hle⟩ := isOnward_of_perform (fun b hb => (hmove b).1 hb.symm) hu hs
    obtain ⟨ht, hle'⟩ := ih (fun b => (hmove b).2) hrest huOnward
    exact ⟨ht, Beat.le_trans hle hle'⟩

/-- A drain at a beat that is not a number does nothing. -/
theorem drain_of_isNaN {now : Beat} (hnow : now.isNaN = true) (fuel : Nat) (s : Script ε φ) :
    s.drain (fuel + 1) now = some ⟨s, {}, .ok {}⟩ := by
  have hnle : ¬s.restUntil ≤ now := fun hle =>
    Bool.false_ne_true ((Beat.le_iff.1 hle).2.1.symm.trans hnow)
  have hready : s.isReady now = false := by simp [isReady, hnle]
  rw [drain, drainFrom, turn_eq_idle (.inl hready)]
  rfl

/-- However a script with checked settings is given entries, drained and stopped, its clocks are
numbers, and its time is not before zero and does not go back : after the calls and after any
further ones, and at every entry that a further drain gets to, be it ever done or not. A drain at a
beat that is not a number changes nothing. -/
theorem isTimed_of_check {c : ScriptSettings} (hcheck : c.check = .ok ()) :
    ∃ s : Script ε φ, c.script? = .ok s ∧ ∀ fuel calls t history,
      (∀ b, .moveTo b ∉ calls) → s.run fuel calls = some (t, history) →
      t.IsTimed ∧
        (∀ now n before p later, t.passes now n 0 = before ++ p :: later →
          p.script.IsTimed ∧ p.after.IsTimed ∧ t.internal ≤ p.script.internal ∧
            p.script.internal ≤ p.after.internal ∧
            ∀ q ∈ later, p.after.internal ≤ q.script.internal) ∧
        (∀ n further u history', (∀ b, .moveTo b ∉ further) →
          t.run n further = some (u, history') → u.IsTimed ∧ t.internal ≤ u.internal) ∧
        ∀ n now, now.isNaN = true → t.drain (n + 1) now = some ⟨t, {}, .ok {}⟩ := by
  refine ⟨c.script, by rw [ScriptSettings.script?, hcheck, Except.map], ?_⟩
  intro fuel calls t history hmove hrun
  have ht : t.IsOnward := (isOnward_of_run hmove hrun (isOnward_of_check hcheck)).1
  refine ⟨ht.isTimed, ?_, ?_, fun n now hnow => drain_of_isNaN hnow n t⟩
  · intro now n before p later hpasses
    obtain ⟨u, hleads⟩ := exists_leads_passes now n 0 t
    rw [hpasses] at hleads
    obtain ⟨hp, hafter, hle⟩ := hleads.isOnward_at ht
    exact ⟨hp.isTimed, hafter.isTimed, hle⟩
  · intro n further u history' hmove' hrun'
    obtain ⟨hu, hle⟩ := isOnward_of_run hmove' hrun' ht
    exact ⟨hu.isTimed, hle⟩

/-- A script that works far ahead of a start far back. -/
def farAhead : ScriptSettings := { start := -1e308, runahead := 1.5e308, limit := none }

/-- Rests that take the clocks out of range, one that never ends and two of no valid length, drains
at beats that are not numbers or not finite, and a stop. -/
def longHaul : List (Call Playback.ShowEvent Phase) :=
  [.enqueue [.rest 1e308, .rest 1.7e308, .rest (-1)], .drain (0 / 0), .drain (-1 / 0),
    .drain 1.75e308, .seed .outro, .enqueue [.rest (1 / 0), .rest (0 / 0)], .drain (1 / 0),
    .drain (0 / 0), .drain (1 / 0), .stop, .drain (1 / 0)]

theorem isTimed_of_check_longHaul : farAhead.check = .ok () ∧
    (∀ b, Call.moveTo b ∉ longHaul) ∧
    ∃ (s t : Script Playback.ShowEvent Phase) (history : List (Record Playback.ShowEvent Phase)),
      farAhead.script? = .ok s ∧ s.run 20 longHaul = some (t, history) ∧
      history.filterMap Record.endedWell = [true, true, false, false, true, true, true] ∧
      t.IsTimed ∧ (t.internal == 1 / 0) = true ∧
      t.drain 1 (0 / 0) = some ⟨t, {}, .ok {}⟩ := by
  have hchecked : farAhead.check.isOk = true := by decide +kernel
  have hcheck : farAhead.check = .ok () := by
    cases h : farAhead.check with
    | ok => rfl
    | error flaw => simp [h, Except.isOk, Except.toBool] at hchecked
  have hmove : ∀ b, Call.moveTo b ∉ longHaul := by simp [longHaul]
  have hend : (farAhead.script.run 20 longHaul).map (fun x =>
      (x.1.internal == 1 / 0, x.2.filterMap Record.endedWell)) =
        some (true, [true, true, false, false, true, true, true]) := by
    decide +kernel
  obtain ⟨s, hs, hall⟩ := isTimed_of_check (ε := Playback.ShowEvent) (φ := Phase) hcheck
  obtain rfl : farAhead.script = s := by
    rw [ScriptSettings.script?, hcheck, Except.map] at hs
    exact Except.ok.inj hs
  obtain ⟨⟨t, history⟩, hrun, hfacts⟩ := Option.map_eq_some_iff.1 hend
  obtain ⟨hinf, hended⟩ := Prod.mk.inj hfacts
  obtain ⟨ht, -, -, hidle⟩ := hall 20 longHaul t history hmove hrun
  exact ⟨hcheck, hmove, _, t, history, hs, hrun, hended, ht, hinf, hidle 0 _ (by decide)⟩

end Script

end Downbeat
