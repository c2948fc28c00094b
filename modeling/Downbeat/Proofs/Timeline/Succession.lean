import Downbeat.Proofs.Timeline.Round

/-!
# What the ends of events bring on

An event ends in its visit if its width has run out by then, and in the sweep if it wants to go
(`Life.Part.Ends`). What the end of an event brings on comes to the line where the event ends. So it
waits for the next tick if the event ends because it wants to go, and it has a part in the same
tick if the width of the event has run out (`Chronicle.newborns_of_ends`).
-/

set_option linter.unusedSectionVars false

namespace Downbeat

variable {α ε : Type} [Placed ε] [Hosted ε ε]

namespace Life.Part

/-- The event ends in its part, and its end has the effects `fx`. If `out`, its width has run out,
and otherwise it wants to go. -/
def Ends (fuel : Nat) (now : Beat) (out : Bool) (fx : Effects ε) (x : Part α ε) : Prop :=
  x.life.slot.IsDue now ∧ ∃ s before s', x.life.slot.attend fuel now = some (s, before) ∧
    s.isOut now = out ∧ (out = false → Hosted.isDone ε s.event = true) ∧
    s.finish fuel now = some (s', fx)

variable {fuel : Nat} {now : Beat} {x : Part α ε}

/-- The hooks that are called on the event in its part. -/
def hooks (x : Part α ε) : List Moment := x.sweep.1.slot.event.diary

/-- An event that is due is over after its part if it has ended there. -/
theorem IsPlayed.isOver_iff (h : x.IsPlayed fuel now) (hended : x.life.slot.ended = false)
    (hdue : x.life.slot.IsDue now) :
    x.sweep.1.bare.isOver = true ↔ ∃ out fx, x.Ends fuel now out fx := by
  have hfares := h.fares hended
  generalize (x.visit.1.bare, x.visit.2) = visited at hfares
  generalize hsweep : (x.sweep.1.bare, x.sweep.2) = swept at hfares
  cases hfares with
  | early hwaiting hearly =>
    rw [hdue hwaiting] at hearly
    cases hearly
  | stays _ hattend hwithin hstays =>
    rw [(Prod.mk.inj hsweep).1, Slot.isOver, (Slot.attend_spec hattend).2, hended, hstays]
    refine iff_of_false Bool.false_ne_true ?_
    rintro ⟨out, fx, -, s, before, s', hattend', rfl, hdone, -⟩
    obtain ⟨rfl, rfl⟩ := Prod.mk.inj (Option.some.inj (hattend.symm.trans hattend'))
    rw [hdone hwithin] at hstays
    cases hstays
  | outlasts _ hattend hout hfinish =>
    rw [(Prod.mk.inj hsweep).1, Slot.isOver, Slot.ended_of_finish hfinish]
    exact iff_of_true rfl
      ⟨true, _, hdue, _, _, _, hattend, hout, (absurd ·.symm Bool.false_ne_true), hfinish⟩
  | leaves _ hattend hwithin hdone hfinish =>
    rw [(Prod.mk.inj hsweep).1, Slot.isOver, Slot.ended_of_finish hfinish]
    exact iff_of_true rfl ⟨false, _, hdue, _, _, _, hattend, hwithin, fun _ => hdone, hfinish⟩

/-- The hook for the end is called where the event ends. -/
theorem IsPlayed.finish_mem_hooks_iff (h : x.IsPlayed fuel now)
    (hended : x.life.slot.ended = false) :
    .finish ∈ x.hooks ↔ ∃ out fx, x.Ends fuel now out fx := by
  obtain ⟨fx, fx', hvisit, hretire, -, -⟩ := h.tick
  obtain ⟨hstarted, hearly, hslot⟩ | ⟨hdue, -, hdiary⟩ := Diarist.tick_cases hended hvisit hretire
  · have hnone : x.hooks = [] := by rw [hooks, hslot]; rfl
    rw [hnone]
    refine iff_of_false List.not_mem_nil ?_
    rintro ⟨out, fx, hdue, -⟩
    have hlate : decide (now < Placed.beat x.life.slot.event) = false := hdue hstarted
    exact of_decide_eq_false hlate hearly
  · rw [← h.isOver_iff hended fun hstarted => decide_eq_false (hdue hstarted), hooks, hdiary]
    have hover : x.sweep.1.slot.isOver = x.sweep.1.bare.isOver := rfl
    rw [hover]
    cases x.life.wake.slot.started <;> cases x.sweep.1.bare.isOver <;> simp [Life.wake, Slot.map]

/-- What the end of the event brings on is among what its visit brings on if its width has run out,
and otherwise it is what the sweep brings on. -/
theorem IsPlayed.events_of_ends (h : x.IsPlayed fuel now) (hended : x.life.slot.ended = false)
    {out : Bool} {fx : Effects ε} (hends : x.Ends fuel now out fx) :
    if out then ∃ before, x.visit.2.events = before ++ fx.events else x.sweep.2.events = fx.events := by
  obtain ⟨hdue, s, before, s', hattend, rfl, hdone, hfinish⟩ := hends
  have hfares := h.fares hended
  generalize hvisit : (x.visit.1.bare, x.visit.2) = visited at hfares
  generalize hsweep : (x.sweep.1.bare, x.sweep.2) = swept at hfares
  cases hfares with
  | early hwaiting hearly =>
    rw [hdue hwaiting] at hearly
    cases hearly
  | stays _ hattend' hwithin hstays =>
    obtain ⟨rfl, rfl⟩ := Prod.mk.inj (Option.some.inj (hattend.symm.trans hattend'))
    rw [hdone hwithin] at hstays
    cases hstays
  | outlasts _ hattend' hout hfinish' =>
    obtain ⟨rfl, rfl⟩ := Prod.mk.inj (Option.some.inj (hattend.symm.trans hattend'))
    obtain ⟨rfl, rfl⟩ := Prod.mk.inj (Option.some.inj (hfinish.symm.trans hfinish'))
    rw [if_pos hout, (Prod.mk.inj hvisit).2]
    exact ⟨before.events, rfl⟩
  | leaves _ hattend' hwithin _ hfinish' =>
    obtain ⟨rfl, rfl⟩ := Prod.mk.inj (Option.some.inj (hattend.symm.trans hattend'))
    obtain ⟨rfl, rfl⟩ := Prod.mk.inj (Option.some.inj (hfinish.symm.trans hfinish'))
    rw [if_neg (by rw [hwithin]; exact Bool.false_ne_true), (Prod.mk.inj hsweep).2]

end Life.Part

namespace Chronicle

open Life

/-- What becomes of what the end of an event brings on in a round whose part is `x`. -/
structure Succession (fuel : Nat) (c : Chronicle α ε) (parts : List (Part α ε))
    (c' : Chronicle α ε) (x : Part α ε) : Prop where
  called : .finish ∈ x.hooks ↔ ∃ out fx, x.Ends fuel c.clock.beat out fx
  /-- If the event ends because it wants to go, what its end brings on is on the line after the
  round, and is not visited before the next one, whenever that is. -/
  waits : ∀ {fx}, x.Ends fuel c.clock.beat false fx →
    (newborns x.life.owner c'.ticks fx.events).Sublist c'.live ∧
      ∀ {fuel' clock c''}, process fuel' { c' with clock } = some c'' → ∃ parts',
        Round fuel' { c' with clock } parts' c'' ∧
        (newborns x.life.owner c'.ticks fx.events).Sublist (parts'.map (·.life))
  /-- If its width has run out, what its end brings on is visited in the same round. -/
  joins : ∀ {fx}, x.Ends fuel c.clock.beat true fx →
    (newborns x.life.owner c.ticks fx.events).Sublist (parts.map (·.life))

/-- What the end of an event brings on is first visited in the next tick if the event ends because it
wants to go, and in the same tick if its width has run out. -/
theorem newborns_of_ends {fuel : Nat} {c c' : Chronicle α ε}
    (hc : ∀ l ∈ c.live, l.slot.ended = false) (h : c.process fuel = some c') :
    ∃ parts, c.Round fuel parts c' ∧ ∀ x ∈ parts, Succession fuel c parts c' x := by
  obtain ⟨parts, hround⟩ := exists_round_of_process h
  refine ⟨parts, hround, fun x hx => ?_⟩
  have hplayed := hround.played x hx
  have hended := hround.ended hc x hx
  refine ⟨hplayed.finish_mem_hooks_iff hended, fun {fx} hends => ?_, fun {fx} hends => ?_⟩
  · have hevents : x.sweep.2.events = fx.events := hplayed.events_of_ends hended hends
    have hlive := hround.newborns_sweep hx
    rw [hevents] at hlive
    refine ⟨hlive, fun {fuel' clock c''} h' => ?_⟩
    obtain ⟨parts', hround'⟩ := exists_round_of_process h'
    refine ⟨parts', hround', ?_⟩
    rw [hround'.lives]
    exact hlive.trans (List.sublist_append_left _ _)
  · obtain ⟨before, hevents⟩ : ∃ before, x.visit.2.events = before ++ fx.events :=
      hplayed.events_of_ends hended hends
    have hborn := hround.newborns_visit hx
    rw [hevents, newborns, List.map_append] at hborn
    exact (List.sublist_append_right _ _).trans hborn

/-- A stand-in of no width, whose end brings on a cue. -/
def passing : Act := .guest (.playing "pass" 0 0 9 false [] [] [.cue (.light "out" "blue")])

/-- A stand-in that wants to go at once, and whose end brings on a cue. -/
def restless : Act := .guest (.playing "rest" 0 8 0 false [] [] [.cue (.playStem "in" "drums")])

/-- A host with these events. -/
def foyer (events : List Act) : Chronicle Unit Act :=
  { live := events.map fun event => { owner := (), arrival := 0, slot := { event } } }

theorem newborns_of_ends_foyer : ∃ c', (foyer [passing, restless]).process 20 = some c' ∧
    ∃ parts, (foyer [passing, restless]).Round 20 parts c' ∧
      ∀ x ∈ parts, Succession 20 (foyer [passing, restless]) parts c' x := by
  have hs : ((foyer [passing, restless]).process 20).isSome := by decide +kernel
  obtain ⟨c', hc'⟩ := Option.isSome_iff_exists.1 hs
  have hended : ∀ l ∈ (foyer [passing, restless]).live, l.slot.ended = false := by
    intro l hl
    obtain ⟨e, -, rfl⟩ := List.mem_map.1 hl
    rfl
  exact ⟨c', hc', newborns_of_ends hended hc'⟩

/-- The cue that the end of the first of them brings on fires, is updated and ends in the same tick,
and nothing is left on the line. -/
theorem passing_starts_in_same_tick : ∃ c', (foyer [passing]).process 20 = some c' ∧
    c'.live = [] ∧ c'.gone.map (fun l => (l.arrival, l.hooks)) =
      [(0, [.start, .update, .finish]), (0, [.start, .update, .finish])] ∧
    c'.log.map (·.2.label) = ["out", "pass:end", "pass:update", "pass:start"] := by
  have hrun : ((foyer [passing]).process 20).map (fun c' =>
      (c'.live.length, c'.gone.map (fun l => (l.arrival, l.hooks)), c'.log.map (·.2.label))) =
        some (0, [(0, [.start, .update, .finish]), (0, [.start, .update, .finish])],
          ["out", "pass:end", "pass:update", "pass:start"]) := by
    decide +kernel
  obtain ⟨c', hc', h⟩ := Option.map_eq_some_iff.1 hrun
  obtain ⟨hlive, h⟩ := Prod.mk.inj h
  exact ⟨c', hc', List.eq_nil_of_length_eq_zero hlive, Prod.mk.inj h⟩

end Chronicle

end Downbeat
