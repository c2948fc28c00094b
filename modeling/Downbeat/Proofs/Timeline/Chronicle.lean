import Downbeat.Proofs.Timeline.Projection

/-!
# Chronicles

A chronicle (`Chronicle`) is a host that also keeps the history of its events : the life of
each event (`Life`), the events that are gone included, and to whom each firing in the log
belongs. In a life there is a page for each tick that visited the event, with the hooks that
were called on it in that tick (`Day`). The hooks are noted by the event itself
(`Diarist`), and what an event brings on belongs to the owner of the event.

A chronicle without its history is a time line (`Chronicle.timeline`), and it ticks as the
time line does (`Chronicle.timeline_process`, `Chronicle.timeline_run`). So a chronicle of
any run of a host tells the history of that run.
-/

set_option linter.unusedSectionVars false

namespace Downbeat

/-- The effects of several things, one after another. -/
def Effects.concat {ε : Type} : List (Effects ε) → Effects ε
  | [] => {}
  | fx :: more => fx ++ concat more

theorem Effects.events_concat {ε : Type} (l : List (Effects ε)) :
    (concat l).events = l.flatMap events := by
  induction l with
  | nil => rfl
  | cons fx l ih => rw [concat, events_append, ih, List.flatMap_cons]

theorem Effects.firings_concat {ε : Type} (l : List (Effects ε)) :
    (concat l).firings = l.flatMap firings := by
  induction l with
  | nil => rfl
  | cons fx l ih => rw [concat, firings_append, ih, List.flatMap_cons]

theorem Effects.concat_append {ε : Type} (l m : List (Effects ε)) :
    concat (l ++ m) = concat l ++ concat m := by
  induction l with
  | nil => rfl
  | cons fx l ih =>
    rw [List.cons_append, concat, concat, ih]
    show Effects.append _ (Effects.append _ _) = Effects.append (Effects.append _ _) _
    simp [Effects.append, List.append_assoc]

/-! ## Diaries -/

/-- An event that notes down the hooks that are called on it. -/
structure Diarist (ε : Type) where
  event : ε
  diary : List Moment := []

variable {α ε : Type} [Placed ε] [Hosted ε ε]

namespace Diarist

instance : Placed (Diarist ε) where
  beat d := Placed.beat d.event
  moveTo b d := { d with event := Placed.moveTo b d.event }
  refusal b d := Placed.refusal b d.event

instance : Hosted (Diarist ε) (Diarist ε) where
  width d := Hosted.width ε d.event
  isDone d := Hosted.isDone ε d.event
  act fuel m now d :=
    (Hosted.act fuel m now d.event).map fun (e, fx) =>
      (⟨e, d.diary ++ [m]⟩, fx.map fun e => { event := e })

/-- A diary changes nothing. -/
theorem projects : Projects (event : Diarist ε → ε) where
  beat _ := rfl
  width _ := rfl
  isDone _ := rfl
  act fuel m now d := by
    simp [Hosted.act, Option.map_map, Function.comp_def, Effects.map]

end Diarist

/-! ## Lives -/

/-- A tick in the life of an event. -/
structure Day (ε : Type) where
  /-- The number of the tick. -/
  tick : Nat
  /-- The beat of the host. -/
  now : Beat
  /-- The slot before the tick. -/
  before : Slot ε
  /-- The hooks that were called on the event, in order. -/
  hooks : List Moment
  /-- The slot at the end of the tick. -/
  after : Slot ε

/-- The life of an event on the time line. -/
structure Life (α ε : Type) where
  /-- To whom the event belongs. -/
  owner : α
  /-- The number of the first tick that gets to the event. -/
  arrival : Nat
  slot : Slot ε
  /-- The ticks that visited the event, in order. -/
  days : List (Day ε) := []

namespace Life

/-- A life in the course of a tick : as it was before the tick, and the slot as it is now, with
the hooks of the tick in the diary of the event. -/
structure Today (α ε : Type) where
  life : Life α ε
  slot : Slot (Diarist ε)

/-- The life at the beginning of a tick. -/
def wake (l : Life α ε) : Today α ε := ⟨l, l.slot.map fun e => { event := e }⟩

namespace Today

/-- The slot without the diary. -/
def bare (x : Today α ε) : Slot ε := x.slot.map Diarist.event

/-- The page for the day at the end of tick number `tick`. -/
def page (tick : Nat) (now : Beat) (x : Today α ε) : Day ε :=
  ⟨tick, now, x.life.slot, x.slot.event.diary, x.bare⟩

/-- The life at the end of tick number `tick`. -/
def close (tick : Nat) (now : Beat) (x : Today α ε) : Life α ε :=
  { x.life with slot := x.bare, days := x.life.days ++ [x.page tick now] }

/-- Lets the slot act. -/
def act (go : Slot (Diarist ε) → Option (Slot (Diarist ε) × Effects (Diarist ε)))
    (x : Today α ε) : Option (Today α ε × Effects ε) :=
  (go x.slot).map fun (s, fx) => ({ x with slot := s }, fx.map Diarist.event)

end Today

/-- The lives of what some members of the line brought on, to be visited from tick number
`arrival` on. -/
def heirs (arrival : Nat) (xs : List (Today α ε × Effects ε)) : List (Life α ε) :=
  xs.flatMap fun (x, fx) => fx.events.map fun e =>
    { owner := x.life.owner, arrival, slot := { event := e } }

end Life

/-! ## Chronicles -/

/-- A host and its history. -/
structure Chronicle (α ε : Type) where
  clock : Clock := {}
  /-- The number of ticks so far. -/
  ticks : Nat := 0
  /-- The lives of the events on the time line. -/
  live : List (Life α ε) := []
  /-- The lives of the events that have been removed. -/
  gone : List (Life α ε) := []
  /-- What has fired and to whom it belongs, newest first. -/
  log : List (α × Firing) := []

namespace Chronicle

open Life

/-- The host without its history. -/
def timeline (c : Chronicle α ε) : Timeline ε :=
  { clock := c.clock, slots := c.live.map (·.slot), log := c.log.map (·.2) }

/-- What has fired in a tick, in order, and to whom it belongs. -/
def firings (xs : List (Today α ε × Effects ε)) : List (α × Firing) :=
  xs.flatMap fun (x, fx) => fx.firings.map (x.life.owner, ·)

/-- Visits the members of a line, then those that they bring on, and so on, in at most `waves`
waves. -/
def visitAll (fuel tick : Nat) (now : Beat) :
    (waves : Nat) → List (Today α ε) → Option (List (Today α ε × Effects ε))
  | 0, _ => none
  | waves + 1, line => do
    let seen ← line.mapM (Today.act (Slot.visit fuel now))
    if (heirs tick seen).isEmpty then return seen
    let later ← visitAll fuel tick now waves ((heirs tick seen).map wake)
    return seen ++ later

/-- One tick at the beat of the clock. -/
def process (fuel : Nat) (c : Chronicle α ε) : Option (Chronicle α ε) := do
  let now := c.clock.beat
  let seen ← visitAll fuel c.ticks now fuel (c.live.map wake)
  let retired ← (seen.map (·.1)).mapM (Today.act (Slot.retire fuel now))
  let lives := retired.map fun (x, _) => x.close c.ticks now
  return { c with
    ticks := c.ticks + 1
    live := lives.filter (!·.slot.isOver) ++ heirs (c.ticks + 1) retired
    gone := c.gone ++ lives.filter (·.slot.isOver)
    log := (firings (seen ++ retired)).reverse ++ c.log }

/-! ## Without the history -/

theorem runLine_map_bare {go : Slot ε → Option (Slot ε × Effects ε)}
    {go' : Slot (Diarist ε) → Option (Slot (Diarist ε) × Effects (Diarist ε))}
    (hgo : ∀ s, go (s.map Diarist.event) =
      (go' s).map (Prod.map (Slot.map Diarist.event) (Effects.map Diarist.event)))
    (xs : List (Today α ε)) :
    Timeline.runLine go (xs.map Today.bare) = (xs.mapM (Today.act go')).map fun ys =>
      (ys.map (·.1.bare), Effects.concat (ys.map (·.2))) := by
  induction xs with
  | nil => rfl
  | cons x xs ih =>
    have hx : go x.bare = (go' x.slot).map
        (Prod.map (Slot.map Diarist.event) (Effects.map Diarist.event)) := hgo x.slot
    rw [List.map_cons, Timeline.runLine, hx, ih, List.mapM_cons, Today.act]
    cases go' x.slot with
    | none => rfl
    | some y => cases xs.mapM (Today.act go') <;> rfl

theorem map_bare_heirs (arrival : Nat) (xs : List (Today α ε × Effects ε)) :
    ((heirs arrival xs).map wake).map Today.bare =
      Timeline.fresh (Effects.concat (xs.map (·.2))).events := by
  simp [heirs, Timeline.fresh, Effects.events_concat, List.map_flatMap, List.flatMap_map,
    Function.comp_def, wake, Today.bare, Slot.map]

theorem map_slot_heirs (arrival : Nat) (xs : List (Today α ε × Effects ε)) :
    (heirs arrival xs).map (·.slot) =
      Timeline.fresh (Effects.concat (xs.map (·.2))).events := by
  simp [heirs, Timeline.fresh, Effects.events_concat, List.map_flatMap, List.flatMap_map,
    Function.comp_def]

theorem map_snd_firings (xs : List (Today α ε × Effects ε)) :
    (firings xs).map (·.2) = (Effects.concat (xs.map (·.2))).firings := by
  simp [firings, Effects.firings_concat, List.map_flatMap, List.flatMap_map, Function.comp_def]

theorem visitAll_map_bare (fuel tick : Nat) (now : Beat) (waves : Nat)
    (xs : List (Today α ε)) :
    Timeline.visitAll fuel now waves (xs.map Today.bare) =
      (visitAll fuel tick now waves xs).map fun ys =>
        (ys.map (·.1.bare), { Effects.concat (ys.map (·.2)) with events := [] }) := by
  induction waves generalizing xs with
  | zero => rfl
  | succ waves ih =>
    rw [Timeline.visitAll, visitAll, runLine_map_bare (Diarist.projects.visit_map fuel now)]
    cases xs.mapM (Today.act (Slot.visit fuel now)) with
    | none => rfl
    | some ys =>
      have hempty : (Effects.concat (ys.map (·.2))).events.isEmpty = (heirs tick ys).isEmpty := by
        rw [Bool.eq_iff_iff, List.isEmpty_iff, List.isEmpty_iff, ← List.map_eq_nil_iff (f := wake),
          ← List.map_eq_nil_iff (f := Today.bare), map_bare_heirs, Timeline.fresh,
          List.map_eq_nil_iff]
      simp only [Option.map_some, Option.bind_eq_bind, Option.bind_some, hempty]
      split
      · rename_i hnil
        rw [← hempty, List.isEmpty_iff] at hnil
        simp [← hnil]
      · rw [← map_bare_heirs tick, ih]
        cases visitAll fuel tick now waves ((heirs tick ys).map wake) with
        | none => rfl
        | some zs =>
          simp only [Option.map_some, Option.bind_some, Option.pure_def, List.map_append,
            Effects.concat_append]
          rfl

theorem timeline_process (fuel : Nat) (c : Chronicle α ε) :
    (c.process fuel).map timeline = (c.timeline.process fuel).map (·.1) := by
  have hslots : c.timeline.slots = (c.live.map wake).map Today.bare := by
    simp [timeline, Function.comp_def, wake, Today.bare, Slot.map]
  rw [process, Timeline.process, hslots]
  simp only [visitAll_map_bare _ c.ticks]
  have hbeat : c.timeline.clock = c.clock := rfl
  rw [hbeat]
  cases visitAll fuel c.ticks c.clock.beat fuel (c.live.map wake) with
  | none => rfl
  | some seen =>
    have hbare : seen.map (·.1.bare) = (seen.map (·.1)).map Today.bare := by
      rw [List.map_map]
      rfl
    simp only [Option.map_some, Option.bind_eq_bind, Option.bind_some, hbare,
      runLine_map_bare (Diarist.projects.retire_map fuel c.clock.beat)]
    cases (seen.map (·.1)).mapM (Today.act (Slot.retire fuel c.clock.beat)) with
    | none => rfl
    | some retired =>
      have hlive : ((retired.map fun x => x.1.close c.ticks c.clock.beat).filter
            (!·.slot.isOver)).map (·.slot) =
          (retired.map (·.1.bare)).filter (!·.isOver) := by
        rw [List.filter_map, List.map_map, List.filter_map]
        rfl
      simp [timeline, hlive, map_slot_heirs, map_snd_firings, Effects.concat_append,
        Timeline.join_eq]

/-! ## Whole runs -/

end Chronicle

/-- The ways in which a host is made to tick. -/
inductive Tick where
  | process
  | advance (delta : Beat)
  | advanceSeconds (seconds bpm : Float)
  | advanceTo (beat : Beat)

/-- The clock of a tick, from the clock before it. -/
def Tick.clock (c : Clock) : Tick → Clock
  | process => c
  | advance delta => c.advance delta
  | advanceSeconds seconds bpm => c.advanceSeconds seconds bpm
  | advanceTo beat => c.advance (beat - c.beat)

/-- What can be done with a host : an event is added, on behalf of an owner, or the host is made
to tick, with a bound on its work. -/
inductive Deed (α ε : Type) where
  | add (owner : α) (e : ε)
  | tick (fuel : Nat) (k : Tick)

namespace Timeline

/-- A tick of the host. -/
def tick (fuel : Nat) (t : Timeline ε) : Tick → Option (Timeline ε × List Notice)
  | .process => t.process fuel
  | .advance delta => t.advance fuel delta
  | .advanceSeconds seconds bpm => t.advanceSeconds fuel seconds bpm
  | .advanceTo beat => t.advanceTo fuel beat

theorem tick_eq (fuel : Nat) (t : Timeline ε) (k : Tick) :
    t.tick fuel k = process fuel { t with clock := k.clock t.clock } := by
  cases k <;> rfl

/-- The host after a deed. -/
def perform (t : Timeline ε) : Deed α ε → Option (Timeline ε)
  | .add _ e => some (t.add e)
  | .tick fuel k => (t.tick fuel k).map (·.1)

/-- The host after some deeds. It is missing if a tick is more work than its bound. -/
def run (deeds : List (Deed α ε)) (t : Timeline ε) : Option (Timeline ε) :=
  deeds.foldlM perform t

end Timeline

/-- The deed with its event in another form. -/
def Deed.map {δ : Type} (f : δ → ε) : Deed α δ → Deed α ε
  | add owner d => add owner (f d)
  | tick fuel k => tick fuel k

namespace Projects

variable {δ : Type} [Placed δ] [Hosted δ δ] {f : δ → ε}

theorem perform_map (hf : Projects f) (t : Timeline δ) (d : Deed α δ) :
    (t.map f).perform (d.map f) = (t.perform d).map (Timeline.map f) := by
  cases d with
  | add owner d =>
    simp [Timeline.perform, Timeline.add, Timeline.addAll, Timeline.join_eq, Deed.map,
      Timeline.map, Timeline.fresh, Slot.map]
  | tick fuel k =>
    have hprocess := hf.process_map fuel { t with clock := k.clock t.clock }
    rw [Deed.map, Timeline.perform, Timeline.perform, Timeline.tick_eq, Timeline.tick_eq,
      Option.map_map]
    exact (congrArg (Option.map (·.1)) hprocess).trans (Option.map_map ..)

/-- A run is the same without what the events carry. -/
theorem deeds_map (hf : Projects f) (deeds : List (Deed α δ)) (t : Timeline δ) :
    (t.map f).run (deeds.map (Deed.map f)) = (t.run deeds).map (Timeline.map f) := by
  induction deeds generalizing t with
  | nil => rfl
  | cons d deeds ih =>
    rw [Timeline.run, Timeline.run, List.map_cons, List.foldlM_cons, List.foldlM_cons,
      hf.perform_map]
    cases t.perform d with
    | none => rfl
    | some t' => exact ih t'

end Projects

namespace Chronicle

/-- The chronicle after a deed. -/
def perform (c : Chronicle α ε) : Deed α ε → Option (Chronicle α ε)
  | .add owner e =>
    some { c with live := c.live ++ [{ owner, arrival := c.ticks, slot := { event := e } }] }
  | .tick fuel k => process fuel { c with clock := k.clock c.clock }

/-- The chronicle after some deeds. -/
def run (deeds : List (Deed α ε)) (c : Chronicle α ε) : Option (Chronicle α ε) :=
  deeds.foldlM perform c

theorem timeline_perform (c : Chronicle α ε) (d : Deed α ε) :
    (c.perform d).map timeline = c.timeline.perform d := by
  cases d with
  | add owner e =>
    simp [perform, Timeline.perform, timeline, Timeline.add, Timeline.addAll, Timeline.join_eq,
      Timeline.fresh]
  | tick fuel k =>
    rw [perform, Timeline.perform, timeline_process, Timeline.tick_eq]
    rfl

/-- A chronicle of a run tells the history of that run. -/
theorem timeline_run (deeds : List (Deed α ε)) (c : Chronicle α ε) :
    (c.run deeds).map timeline = c.timeline.run deeds := by
  induction deeds generalizing c with
  | nil => rfl
  | cons d deeds ih =>
    rw [run, Timeline.run, List.foldlM_cons, List.foldlM_cons, ← timeline_perform]
    cases c.perform d with
    | none => rfl
    | some c' => exact ih c'

end Chronicle

end Downbeat
