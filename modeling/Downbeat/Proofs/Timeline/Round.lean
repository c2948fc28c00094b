import Downbeat.Proofs.Timeline.Lifecycle

/-!
# The round of a tick

A tick goes round : it visits the events on the line and those that come to the line meanwhile, and
then sweeps the line for events that want to go. `Chronicle.Round` tells this event by event, each
with its part in the round (`Life.Part`). An event that is brought on in a visit has a part in the
same round, and one that is brought on in the sweep is on the line for the next one.

How an event fares that has not ended is one of four things (`Slot.Fares`) : it is early, it acts
and stays, its width has run out and it ends in its visit, or it wants to go and ends in the sweep.
-/

set_option linter.unusedSectionVars false

namespace Downbeat

variable {α ε : Type} [Placed ε] [Hosted ε ε]

/-! ## One slot -/

namespace Slot

/-- Starts the event unless it has started, and updates it. -/
def attend (fuel : Nat) (now : Beat) (s : Slot ε) : Option (Slot ε × Effects ε) := do
  let (s, fx) ← s.begin fuel now
  let (s, fx') ← s.update fuel now
  return (s, fx ++ fx')

/-- The event has started, or its beat has come. -/
def IsDue (now : Beat) (s : Slot ε) : Prop := s.started = false → s.isEarly now = false

/-- How a slot fares in a tick whose event has not ended : what comes of the visit, and then of the
sweep. -/
inductive Fares (fuel : Nat) (now : Beat) (s : Slot ε) :
    Slot ε × Effects ε → Slot ε × Effects ε → Prop
  | early (waiting : s.started = false) (early : s.isEarly now = true) :
      Fares fuel now s (s, {}) (s, {})
  | stays {s' : Slot ε} {fx : Effects ε} (due : s.IsDue now)
      (attend : s.attend fuel now = some (s', fx)) (within : s'.isOut now = false)
      (stays : Hosted.isDone ε s'.event = false) : Fares fuel now s (s', fx) (s', {})
  /-- The width of the event has run out, and it ends in its visit. -/
  | outlasts {s' s'' : Slot ε} {fx fx' : Effects ε} (due : s.IsDue now)
      (attend : s.attend fuel now = some (s', fx)) (out : s'.isOut now = true)
      (finish : s'.finish fuel now = some (s'', fx')) : Fares fuel now s (s'', fx ++ fx') (s'', {})
  /-- The event wants to go, and ends in the sweep. -/
  | leaves {s' s'' : Slot ε} {fx fx' : Effects ε} (due : s.IsDue now)
      (attend : s.attend fuel now = some (s', fx)) (within : s'.isOut now = false)
      (done : Hosted.isDone ε s'.event = true) (finish : s'.finish fuel now = some (s'', fx')) :
      Fares fuel now s (s', fx) (s'', fx')

theorem begin_spec {fuel : Nat} {now : Beat} {s s' : Slot ε} {fx : Effects ε}
    (h : s.begin fuel now = some (s', fx)) : s'.started = true ∧ s'.ended = s.ended := by
  unfold Slot.begin at h
  split at h
  · rename_i hstarted
    cases h
    exact ⟨hstarted, rfl⟩
  · obtain ⟨⟨e, fx⟩, -, hs⟩ := Option.map_eq_some_iff.1 h
    cases hs
    exact ⟨rfl, rfl⟩

theorem attend_spec {fuel : Nat} {now : Beat} {s s' : Slot ε} {fx : Effects ε}
    (h : s.attend fuel now = some (s', fx)) : s'.started = true ∧ s'.ended = s.ended := by
  simp only [attend, Option.bind_eq_bind, Option.bind_eq_some_iff] at h
  obtain ⟨⟨s₁, fx₁⟩, hbegin, ⟨s₂, fx₂⟩, hupdate, h⟩ := h
  obtain ⟨hstarted, hended⟩ := begin_spec hbegin
  obtain ⟨⟨e, fx'⟩, -, hs⟩ := Option.map_eq_some_iff.1 hupdate
  cases hs
  cases h
  exact ⟨hstarted, hended⟩

theorem ended_of_finish {fuel : Nat} {now : Beat} {s s' : Slot ε} {fx : Effects ε}
    (h : s.finish fuel now = some (s', fx)) : s'.ended = true := by
  obtain ⟨⟨e, fx⟩, -, hs⟩ := Option.map_eq_some_iff.1 h
  cases hs
  rfl

/-- A run attends to the event, and ends it if its width has run out. -/
theorem run_eq_attend {fuel : Nat} {now : Beat} {s : Slot ε} (hended : s.ended = false) :
    s.run fuel now = (s.attend fuel now).bind fun (s', fx) =>
      if s'.isOut now then (s'.finish fuel now).map fun (s'', fx') => (s'', fx ++ fx')
      else some (s', fx) := by
  rw [run, attend]
  cases hbegin : s.begin fuel now with
  | none => rfl
  | some x =>
    obtain ⟨s₁, fx₁⟩ := x
    have hended₁ : s₁.ended = false := (begin_spec hbegin).2.trans hended
    simp only [Option.bind_eq_bind, Option.bind_some, hended₁, Bool.false_eq_true, if_false]
    cases s₁.update fuel now with
    | none => rfl
    | some y =>
      obtain ⟨s₂, fx₂⟩ := y
      cases hout : s₂.isOut now with
      | false => simp [hout]
      | true => cases hfinish : s₂.finish fuel now <;> simp [hout, hfinish]

theorem fares_of_tick {fuel : Nat} {now : Beat} {s s₁ s₂ : Slot ε} {fx₁ fx₂ : Effects ε}
    (hended : s.ended = false) (hvisit : s.visit fuel now = some (s₁, fx₁))
    (hretire : s₁.retire fuel now = some (s₂, fx₂)) : s.Fares fuel now (s₁, fx₁) (s₂, fx₂) := by
  unfold visit at hvisit
  unfold retire at hretire
  split at hvisit
  · rename_i hearly
    cases hvisit
    simp only [Bool.and_eq_true, Bool.not_eq_true'] at hearly
    simp only [hearly.1, Bool.false_and, Bool.false_eq_true, if_false] at hretire
    cases hretire
    exact .early hearly.1 hearly.2
  rename_i hdue
  have hdue : s.IsDue now := fun hstarted => by simpa [hstarted] using hdue
  rw [run_eq_attend hended] at hvisit
  obtain ⟨⟨s', fx⟩, hattend, hvisit⟩ := Option.bind_eq_some_iff.1 hvisit
  obtain ⟨hstarted', hended'⟩ := attend_spec hattend
  rw [hended] at hended'
  dsimp only at hvisit
  split at hvisit
  · rename_i hout
    obtain ⟨⟨s'', fx'⟩, hfinish, h⟩ := Option.map_eq_some_iff.1 hvisit
    cases h
    simp only [ended_of_finish hfinish, Bool.not_true, Bool.and_false, Bool.false_and,
      Bool.false_eq_true, if_false] at hretire
    cases hretire
    exact .outlasts hdue hattend hout hfinish
  · rename_i hout
    cases hvisit
    split at hretire
    · rename_i hdone
      simp only [Bool.and_eq_true] at hdone
      exact .leaves hdue hattend (eq_false_of_ne_true hout) hdone.2 hretire
    · rename_i hdone
      cases hretire
      refine .stays hdue hattend (eq_false_of_ne_true hout) ?_
      simpa [hstarted', hended'] using hdone

end Slot

/-! ## The part of one event -/

namespace Life

/-- The lives that begin with what an event of the owner brings on, to be visited from tick number
`arrival` on. -/
def newborns (owner : α) (arrival : Nat) (es : List ε) : List (Life α ε) :=
  es.map fun e => { owner, arrival, slot := { event := e } }

theorem newborns_sublist_heirs {arrival : Nat} {xs : List (Today α ε × Effects ε)}
    {x : Today α ε × Effects ε} (hx : x ∈ xs) :
    (newborns x.1.life.owner arrival x.2.events).Sublist (heirs arrival xs) :=
  List.sublist_flatten_of_mem (List.mem_map_of_mem hx)

/-- The part of an event in the round of a tick. -/
structure Part (α ε : Type) where
  /-- The life of the event before. -/
  life : Life α ε
  /-- What came of its visit. -/
  visit : Today α ε × Effects ε
  /-- What came of the sweep. -/
  sweep : Today α ε × Effects ε

namespace Part

/-- The part as the host plays it at the beat `now`. -/
structure IsPlayed (fuel : Nat) (now : Beat) (x : Part α ε) : Prop where
  visit : Today.act (Slot.visit fuel now) x.life.wake = some x.visit
  sweep : Today.act (Slot.retire fuel now) x.visit.1 = some x.sweep

/-- The life of the event after tick number `tick`. -/
def after (tick : Nat) (now : Beat) (x : Part α ε) : Life α ε := x.sweep.1.close tick now

variable {fuel : Nat} {now : Beat} {x : Part α ε}

theorem IsPlayed.life_eq (h : x.IsPlayed fuel now) :
    x.visit.1.life = x.life ∧ x.sweep.1.life = x.life := by
  obtain ⟨y, -, hy⟩ := Option.map_eq_some_iff.1 h.visit
  obtain ⟨z, -, hz⟩ := Option.map_eq_some_iff.1 h.sweep
  rw [← hz, ← hy]
  exact ⟨rfl, rfl⟩

theorem IsPlayed.tick (h : x.IsPlayed fuel now) : ∃ fx fx',
    x.life.wake.slot.visit fuel now = some (x.visit.1.slot, fx) ∧
      x.visit.1.slot.retire fuel now = some (x.sweep.1.slot, fx') ∧
      x.visit.2 = fx.map Diarist.event ∧ x.sweep.2 = fx'.map Diarist.event := by
  obtain ⟨⟨s, fx⟩, hvisit, hy⟩ := Option.map_eq_some_iff.1 h.visit
  obtain ⟨⟨s', fx'⟩, hretire, hz⟩ := Option.map_eq_some_iff.1 h.sweep
  rw [← hz, ← hy]
  rw [← hy] at hretire
  exact ⟨fx, fx', hvisit, hretire, rfl, rfl⟩

/-- The diary has no part in what comes of the event. -/
theorem IsPlayed.tick_bare (h : x.IsPlayed fuel now) :
    x.life.slot.visit fuel now = some (x.visit.1.bare, x.visit.2) ∧
      x.visit.1.bare.retire fuel now = some (x.sweep.1.bare, x.sweep.2) := by
  obtain ⟨fx, fx', hvisit, hretire, hfx, hfx'⟩ := h.tick
  have hvisit' := Diarist.projects.visit_map fuel now x.life.wake.slot
  have hretire' := Diarist.projects.retire_map fuel now x.visit.1.slot
  rw [hvisit] at hvisit'
  rw [hretire] at hretire'
  rw [hfx, hfx']
  exact ⟨hvisit', hretire'⟩

theorem IsPlayed.fares (h : x.IsPlayed fuel now) (hended : x.life.slot.ended = false) :
    x.life.slot.Fares fuel now (x.visit.1.bare, x.visit.2) (x.sweep.1.bare, x.sweep.2) :=
  Slot.fares_of_tick hended h.tick_bare.1 h.tick_bare.2

end Part

end Life

/-! ## Whole rounds -/

namespace Chronicle

open Life

/-- The round that leads from the chronicle `c` to `c'`. -/
structure Round (fuel : Nat) (c : Chronicle α ε) (parts : List (Part α ε))
    (c' : Chronicle α ε) : Prop where
  played : ∀ x ∈ parts, x.IsPlayed fuel c.clock.beat
  /-- The events that were on the line have a part, and then those that came in the visits. -/
  lives : parts.map (·.life) = c.live ++ heirs c.ticks (parts.map (·.visit))
  ticks : c'.ticks = c.ticks + 1
  /-- The events that are not over stay, and those that came in the sweep are on the line behind
  them. -/
  live : c'.live = (parts.map (·.after c.ticks c.clock.beat)).filter (!·.slot.isOver) ++
    heirs c'.ticks (parts.map (·.sweep))
  gone : c'.gone = c.gone ++ (parts.map (·.after c.ticks c.clock.beat)).filter (·.slot.isOver)

theorem lives_of_mapM {go : Slot (Diarist ε) → Option (Slot (Diarist ε) × Effects (Diarist ε))}
    {line : List (Life α ε)} {seen : List (Today α ε × Effects ε)}
    (h : (line.map wake).mapM (Today.act go) = some seen) :
    seen.map (·.1.life) = line ∧ ∀ x ∈ seen, Today.act go x.1.life.wake = some x := by
  induction line generalizing seen with
  | nil =>
    cases h
    exact ⟨rfl, List.forall_mem_nil _⟩
  | cons l line ih =>
    simp only [List.map_cons, List.mapM_cons, Option.bind_eq_bind, Option.bind_eq_some_iff] at h
    obtain ⟨x, hx, rest, hrest, h⟩ := h
    cases h
    obtain ⟨hlives, hacts⟩ := ih hrest
    have hlife : x.1.life = l := by
      obtain ⟨y, -, hy⟩ := Option.map_eq_some_iff.1 hx
      rw [← hy]
      rfl
    refine ⟨?_, List.forall_mem_cons.2 ⟨?_, hacts⟩⟩
    · rw [List.map_cons, hlife, hlives]
    · rw [hlife]
      exact hx

theorem lives_of_visitAll {fuel tick waves : Nat} {now : Beat} {line : List (Life α ε)}
    {seen : List (Today α ε × Effects ε)}
    (h : visitAll fuel tick now waves (line.map wake) = some seen) :
    seen.map (·.1.life) = line ++ heirs tick seen ∧
      ∀ x ∈ seen, Today.act (Slot.visit fuel now) x.1.life.wake = some x := by
  induction waves generalizing line seen with
  | zero => cases h
  | succ waves ih =>
    simp only [visitAll, Option.bind_eq_bind, Option.bind_eq_some_iff] at h
    obtain ⟨first, hfirst, h⟩ := h
    obtain ⟨hlives, hacts⟩ := lives_of_mapM hfirst
    split at h
    · rename_i hnone
      cases h
      rw [List.isEmpty_iff.1 hnone, List.append_nil]
      exact ⟨hlives, hacts⟩
    · obtain ⟨later, hlater, h⟩ := Option.bind_eq_some_iff.1 h
      cases h
      obtain ⟨hlives', hacts'⟩ := ih hlater
      refine ⟨?_, List.forall_mem_append.2 ⟨hacts, hacts'⟩⟩
      rw [List.map_append, hlives, hlives', heirs, heirs, heirs, List.flatMap_append]

theorem exists_parts {fuel : Nat} {now : Beat} {seen retired : List (Today α ε × Effects ε)}
    (hseen : ∀ x ∈ seen, Today.act (Slot.visit fuel now) x.1.life.wake = some x)
    (h : (seen.map (·.1)).mapM (Today.act (Slot.retire fuel now)) = some retired) :
    ∃ parts : List (Part α ε), (∀ x ∈ parts, x.IsPlayed fuel now) ∧
      parts.map (·.life) = seen.map (·.1.life) ∧ parts.map (·.visit) = seen ∧
      parts.map (·.sweep) = retired := by
  induction seen generalizing retired with
  | nil =>
    cases h
    exact ⟨[], List.forall_mem_nil _, rfl, rfl, rfl⟩
  | cons x seen ih =>
    simp only [List.map_cons, List.mapM_cons, Option.bind_eq_bind, Option.bind_eq_some_iff] at h
    obtain ⟨y, hy, rest, hrest, h⟩ := h
    cases h
    obtain ⟨hx, hseen⟩ := List.forall_mem_cons.1 hseen
    obtain ⟨parts, hparts, hlives, hvisits, hsweeps⟩ := ih hseen hrest
    refine ⟨⟨x.1.life, x, y⟩ :: parts, List.forall_mem_cons.2 ⟨⟨hx, hy⟩, hparts⟩, ?_, ?_, ?_⟩
    · rw [List.map_cons, List.map_cons, hlives]
    · rw [List.map_cons, hvisits]
    · rw [List.map_cons, hsweeps]

/-- Each tick goes a round, and logs what fires in the visits and then in the sweep. -/
theorem exists_round_and_log {fuel : Nat} {c c' : Chronicle α ε}
    (h : c.process fuel = some c') : ∃ parts, c.Round fuel parts c' ∧
      c'.log = (firings (parts.map (·.visit) ++ parts.map (·.sweep))).reverse ++ c.log := by
  simp only [process, Option.bind_eq_bind, Option.bind_eq_some_iff] at h
  obtain ⟨seen, hseen, retired, hretired, h⟩ := h
  obtain ⟨hlives, hacts⟩ := lives_of_visitAll hseen
  obtain ⟨parts, hparts, hlives', rfl, rfl⟩ := exists_parts hacts hretired
  have hafter : (parts.map (·.sweep)).map (fun x => x.1.close c.ticks c.clock.beat) =
      parts.map (·.after c.ticks c.clock.beat) := by
    rw [List.map_map]
    rfl
  cases h
  refine ⟨parts, ⟨hparts, hlives'.trans hlives, rfl, ?_, ?_⟩, rfl⟩
  · rw [← hafter]
  · rw [← hafter]

/-- Each tick goes a round. -/
theorem exists_round_of_process {fuel : Nat} {c c' : Chronicle α ε}
    (h : c.process fuel = some c') : ∃ parts, c.Round fuel parts c' :=
  (exists_round_and_log h).imp fun _ => And.left

namespace Round

variable {fuel : Nat} {c c' : Chronicle α ε} {parts : List (Part α ε)}

/-- An event that is brought on in the round has not ended before. -/
theorem ended (h : c.Round fuel parts c') (hc : ∀ l ∈ c.live, l.slot.ended = false) :
    ∀ x ∈ parts, x.life.slot.ended = false := by
  intro x hx
  have hlife : x.life ∈ c.live ++ heirs c.ticks (parts.map (·.visit)) := by
    rw [← h.lives]
    exact List.mem_map_of_mem hx
  exact (List.mem_append.1 hlife).elim (hc _) fun hnew => (isNew_of_mem_heirs _ hnew).ended

/-- What an event brings on in its visit has a part in the same round. -/
theorem newborns_visit (h : c.Round fuel parts c') {x : Part α ε} (hx : x ∈ parts) :
    (newborns x.life.owner c.ticks x.visit.2.events).Sublist (parts.map (·.life)) := by
  rw [h.lives, ← (h.played x hx).life_eq.1]
  exact (newborns_sublist_heirs (List.mem_map_of_mem hx)).trans (List.sublist_append_right _ _)

/-- What an event brings on in the sweep is on the line after the round. -/
theorem newborns_sweep (h : c.Round fuel parts c') {x : Part α ε} (hx : x ∈ parts) :
    (newborns x.life.owner c'.ticks x.sweep.2.events).Sublist c'.live := by
  rw [h.live, ← (h.played x hx).life_eq.2]
  exact (newborns_sublist_heirs (List.mem_map_of_mem hx)).trans (List.sublist_append_right _ _)

end Round

end Chronicle

end Downbeat
