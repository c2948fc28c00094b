import Downbeat.Proofs.Playback.Ending
import Downbeat.Proofs.Timeline.Granularity
import Downbeat.Proofs.Timeline.Round

/-!
# A tick leaves nothing to do

An event that stays on the line after its visit is calm (`Slot.IsCalm`) : another visit at the same
beat finds it as it is and leaves it as it is. This is so for a cue, which is early or has started,
and for a script, which is early, rests or has come to the end of its queue
(`Event.isCalm_of_visit`); a script that fails does not stay. What the events of a tick bring on is
visited in the same tick, and the sweep brings on nothing. So all that is on the line after a tick
is calm, and ticks that follow at the same beat do nothing (`Timeline.process_process`); and what a
tick reports is just how many events have gone (`Timeline.getLast?_of_process`).
-/

set_option linter.unusedSectionVars false

namespace Downbeat

variable {ε : Type} [Placed ε] [Hosted ε ε] {fuel : Nat} {now : Beat} {s s' : Slot ε}
  {fx : Effects ε}

/-! ## One slot -/

namespace Slot

/-- The event stays on the line, and another visit at the beat does nothing. -/
structure IsCalm (now : Beat) (s : Slot ε) : Prop where
  stays : s.isOver = false
  visit : ∀ fuel, s.visit (fuel + 1) now = some (s, {})

/-- A visit does not bring back what has ended. -/
theorem ended_of_visit (h : s.visit fuel now = some (s', fx)) (hended : s.ended = true) :
    s'.ended = true := by
  unfold visit at h
  split at h
  · cases h
    exact hended
  · simp only [run, Option.bind_eq_bind, Option.bind_eq_some_iff] at h
    obtain ⟨⟨begun, fx₁⟩, hbegin, h⟩ := h
    have hbegun : begun.ended = true := (begin_spec hbegin).2.trans hended
    rw [if_pos hbegun] at h
    cases h
    exact hbegun

/-- What stays on the line has been left alone by the sweep. -/
theorem eq_of_retire (h : s.retire fuel now = some (s', fx)) (hstays : s'.isOver = false) :
    s' = s := by
  unfold retire at h
  split at h
  · rw [isOver, ended_of_finish h] at hstays
    cases hstays
  · cases h
    rfl

end Slot

/-! ## Cues and scripts -/

namespace Event

variable {φ : Type} [Subroutine φ (Event Empty φ)] [Described φ]
  {s s' : Slot (Event Empty φ)} {fx : Effects (Event Empty φ)}

/-- A cue or a script that stays on the line after its visit is calm. -/
theorem isCalm_of_visit (h : s.visit fuel now = some (s', fx)) (hstays : s'.isOver = false) :
    s'.IsCalm now := by
  refine ⟨hstays, fun fuel' => ?_⟩
  obtain ⟨hended, -⟩ := Bool.or_eq_false_iff.1 hstays
  obtain ⟨e, started, ended⟩ := s
  obtain rfl : ended = false :=
    eq_false_of_ne_true fun hs => by rw [Slot.ended_of_visit h hs] at hended; cases hended
  cases e with
  | cue c =>
    rw [visit_cue] at h
    split at h
    · rename_i hearly
      cases h
      rw [visit_cue, if_pos hearly]
    · cases h
      have hout : decide (c.beat + c.width ≤ now) = false := hended
      rw [hout, visit_cue, hout]
      rfl
  | script x =>
    rcases visit_script_cases h with ⟨hearly, rfl, rfl⟩ | ⟨-, x', htick, rfl⟩
    · rw [visit_script, if_pos hearly]
    · have hout : decide (Placed.beat x' + 1 / 0 ≤ now) = false := hended
      have hidle := Script.tick_of_idle (Script.idle_of_tick htick) fuel'
      rw [hout, visit_script_of_tick (by simp) hidle, hout]
  | guest k => cases k

/-- A cue or a script that ends in the sweep brings on nothing. -/
theorem events_of_retire (h : s.retire fuel now = some (s', fx)) : fx.events = [] := by
  obtain ⟨e, started, ended⟩ := s
  unfold Slot.retire at h
  split at h
  · cases e with
    | guest k => cases k
    | _ =>
      cases h
      rfl
  · cases h
    rfl

end Event

/-! ## Ticks -/

namespace Timeline

theorem exists_of_mem_runLine {go : Slot ε → Option (Slot ε × Effects ε)}
    {line line' : List (Slot ε)} (h : runLine go line = some (line', fx)) :
    ∀ s' ∈ line', ∃ s ∈ line, ∃ fx', go s = some (s', fx') := by
  induction line generalizing line' fx with
  | nil =>
    cases h
    exact nofun
  | cons s line ih =>
    obtain ⟨s', fx₁, rest, fx₂, hs, hrest, rfl, rfl⟩ := exists_of_runLine_cons h
    refine List.forall_mem_cons.2 ⟨⟨s, List.mem_cons_self, fx₁, hs⟩, fun x' hx' => ?_⟩
    obtain ⟨x, hx, hgo⟩ := ih hrest x' hx'
    exact ⟨x, List.mem_cons_of_mem _ hx, hgo⟩

theorem events_of_runLine {go : Slot ε → Option (Slot ε × Effects ε)} {line line' : List (Slot ε)}
    (hgo : ∀ {s s' fx}, go s = some (s', fx) → fx.events = [])
    (h : runLine go line = some (line', fx)) : fx.events = [] := by
  induction line generalizing line' fx with
  | nil =>
    cases h
    rfl
  | cons s line ih =>
    obtain ⟨s', fx₁, rest, fx₂, hs, hrest, rfl, rfl⟩ := exists_of_runLine_cons h
    rw [Effects.events_append, hgo hs, ih hrest, List.append_nil]

theorem length_of_runLine {go : Slot ε → Option (Slot ε × Effects ε)} {line line' : List (Slot ε)}
    (h : runLine go line = some (line', fx)) : line'.length = line.length := by
  induction line generalizing line' fx with
  | nil =>
    cases h
    rfl
  | cons s line ih =>
    obtain ⟨s', fx₁, rest, fx₂, hs, hrest, rfl, rfl⟩ := exists_of_runLine_cons h
    exact congrArg (· + 1) (ih hrest)

/-- All events on the line after the waves of a tick have been visited, also those that have come
to the line meanwhile. -/
theorem exists_visit_of_mem {waves : Nat} {line line' : List (Slot ε)}
    (h : visitAll fuel now waves line = some (line', fx)) :
    ∀ s' ∈ line', ∃ (s : Slot ε) (fx' : Effects ε), s.visit fuel now = some (s', fx') := by
  induction waves generalizing line line' fx with
  | zero => cases h
  | succ waves ih =>
    obtain ⟨first, fx₁, hfirst, ⟨-, rfl, rfl⟩ | ⟨later, fx₂, hlater, rfl, rfl⟩⟩ :=
      exists_of_visitAll_succ h
    · intro s' hs'
      obtain ⟨s, -, hs⟩ := exists_of_mem_runLine hfirst s' hs'
      exact ⟨s, hs⟩
    · refine List.forall_mem_append.2 ⟨fun s' hs' => ?_, ih hlater⟩
      obtain ⟨s, -, hs⟩ := exists_of_mem_runLine hfirst s' hs'
      exact ⟨s, hs⟩

variable {φ : Type} [Subroutine φ (Event Empty φ)] [Described φ]
  {t t' : Timeline (Event Empty φ)} {notices : List Notice}

/-- What a tick leaves on the line is calm. -/
theorem isCalm_of_process (h : t.process fuel = some (t', notices)) :
    ∀ s ∈ t'.slots, s.IsCalm t.clock.beat := by
  obtain ⟨seen, fx, swept, fx', hvisit, hretire, rfl, -⟩ := exists_sweep_of_process h
  intro s hs
  rw [events_of_runLine Event.events_of_retire hretire, fresh_nil, List.append_nil] at hs
  obtain ⟨hmem, hstays⟩ := List.mem_filter.1 hs
  rw [Bool.not_eq_true'] at hstays
  obtain ⟨s₁, hs₁, _, hs₁s⟩ := exists_of_mem_runLine hretire s hmem
  obtain rfl := Slot.eq_of_retire hs₁s hstays
  obtain ⟨_, _, hs₀⟩ := exists_visit_of_mem hvisit s hs₁
  exact Event.isCalm_of_visit hs₀ hstays

/-- The sweep brings on no cues and scripts, so a tick reports just how many of those that it has
visited are gone. -/
theorem getLast?_of_process (h : t.process fuel = some (t', notices)) :
    ∃ seen fx gone, visitAll fuel t.clock.beat fuel t.slots = some (seen, fx) ∧
      gone + t'.slots.length = seen.length ∧
      notices.getLast? = some (.ticked t.clock.beat (.ofNat gone) t'.slots.length) := by
  obtain ⟨seen, fx, swept, fx', hvisit, hretire, rfl, rfl⟩ := exists_sweep_of_process h
  rw [events_of_runLine Event.events_of_retire hretire, fresh_nil, List.append_nil,
    List.length_nil, fewer_zero]
  refine ⟨seen, fx, _, hvisit, ?_, List.getLast?_concat⟩
  rw [← length_of_runLine hretire, swept.length_eq_length_filter_add (·.isOver)]

/-- After a tick of a host of cues and scripts, whatever these are and however the scripts fared,
another tick at the same beat ends however little work it may be, and leaves the host as it is. -/
theorem process_process (h : t.process fuel = some (t', notices)) (n : Nat) :
    t'.process (n + 1) = some (t', [.ticked t'.clock.beat 0 t'.slots.length]) := by
  refine process_of_idle fun s hs => ?_
  rw [clock_of_process h]
  obtain ⟨hstays, hvisit⟩ := isCalm_of_process h s hs
  exact ⟨hstays, hvisit n⟩

/-- A host with a cue for no beat and without an end, a cue of infinite width, a script that brings
on another one and fails, one that exceeds its limit, and one that goes on. -/
def bustle : Timeline Playback.ShowEvent where
  clock := ⟨9⟩
  slots := fresh
    [.cue { Cue.light "haze" "grey" with beat := 0 / 0, width := 0 / 0 },
      .cue (.moveCamera "pan" 2 (1 / 0)), .script failing,
      .script
        { start := 1, runahead := 1, limit := some 2, queue := .ofList [.expand (.opening {})] },
      .script { start := 8, runahead := 2, queue := .ofList [.expand (.opening {})] }]

theorem process_process_bustle : ∃ t' notices, bustle.process 60 = some (t', notices) ∧
    t'.slots.length = 5 ∧ t'.log.length = 10 ∧
    t'.process 1 = some (t', [.ticked t'.clock.beat 0 t'.slots.length]) := by
  have hrun : (bustle.process 60).any (fun r => r.1.slots.length == 5 && r.1.log.length == 10) =
      true := by decide +kernel
  obtain ⟨⟨t', notices⟩, h, hcounts⟩ := (Option.any_eq_true _ _).1 hrun
  simp only [Bool.and_eq_true, beq_iff_eq] at hcounts
  exact ⟨t', notices, h, hcounts.1, hcounts.2, process_process h 0⟩

end Timeline

end Downbeat
