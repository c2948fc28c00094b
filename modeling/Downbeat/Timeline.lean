import Downbeat.Hosted

/-!
# The host

The host runs events against its clock, in ticks. A tick visits the events in the order in
which they came (`Slot.visit`) : an event that is due starts and is updated, one that has
started is updated, and one that has lasted its width ends. Events that are brought on join
the end of the line and are visited in the same tick, wave after wave (`Timeline.visitAll`).
After that, events that want to go end as well, and all events that are over are removed
(`Timeline.process`). What those events bring on that end because they want to go is first
visited in the next tick. A tick reports by how many events its line has become shorter
(`Timeline.fewer`), and that is what it removes less what comes on at its end.

The ticks of events that work for ever have no answer, like the work of such an event.
-/

namespace Downbeat

/-- An event on the time line, and what has happened to it. -/
structure Slot (ε : Type) where
  event : ε
  started : Bool := false
  ended : Bool := false

/-- The host : its clock, its events, and what has fired. -/
structure Timeline (ε : Type) where
  clock : Clock := {}
  slots : List (Slot ε) := []
  /-- What has fired, newest first. -/
  log : List Firing := []

variable {ε : Type} [Placed ε] [Hosted ε ε]

namespace Slot

/-- Whether the event is over. -/
@[inline] def isOver (s : Slot ε) : Bool := s.ended || Hosted.isDone ε s.event

/-- Whether the beat of the event is still to come. -/
@[inline] def isEarly (s : Slot ε) (now : Beat) : Bool := now < Placed.beat s.event

/-- Starts the event unless it has started. -/
def begin (fuel : Nat) (now : Beat) (s : Slot ε) : Option (Slot ε × Effects ε) :=
  if s.started then some (s, {})
  else (Hosted.act fuel .start now s.event).map fun (e, fx) =>
    ({ s with event := e, started := true }, fx)

/-- Ends the event. -/
def finish (fuel : Nat) (now : Beat) (s : Slot ε) : Option (Slot ε × Effects ε) :=
  (Hosted.act fuel .finish now s.event).map fun (e, fx) =>
    ({ s with event := e, ended := true }, fx)

/-- Updates the event. -/
def update (fuel : Nat) (now : Beat) (s : Slot ε) : Option (Slot ε × Effects ε) :=
  (Hosted.act fuel .update now s.event).map fun (e, fx) => ({ s with event := e }, fx)

/-- Whether the event has lasted its width. -/
def isOut (s : Slot ε) (now : Beat) : Bool :=
  Placed.beat s.event + Hosted.width ε s.event ≤ now

/-- Runs an event whose beat has come. -/
def run (fuel : Nat) (now : Beat) (s : Slot ε) : Option (Slot ε × Effects ε) := do
  let (s, fx) ← s.begin fuel now
  if s.ended then return (s, fx)
  let (s, fx') ← s.update fuel now
  if !s.isOut now then return (s, fx ++ fx')
  let (s, fx'') ← s.finish fuel now
  return (s, fx ++ fx' ++ fx'')

/-- Visits an event. -/
@[inline] def visit (fuel : Nat) (now : Beat) (s : Slot ε) : Option (Slot ε × Effects ε) :=
  if !s.started && s.isEarly now then some (s, {}) else s.run fuel now

/-- Ends an event that wants to go. -/
@[inline] def retire (fuel : Nat) (now : Beat) (s : Slot ε) : Option (Slot ε × Effects ε) :=
  if s.started && !s.ended && Hosted.isDone ε s.event then s.finish fuel now else some (s, {})

end Slot

namespace Timeline

/-- Slots for events that are brought on. -/
def fresh (es : List ε) : List (Slot ε) := es.map fun e => { event := e }

/-- A line with more events at its end. It is not copied for nothing. -/
def join (line : List (Slot ε)) (es : List ε) : List (Slot ε) :=
  if es.isEmpty then line else line ++ fresh es

omit [Placed ε] [Hosted ε ε] in
theorem join_eq (line : List (Slot ε)) (es : List ε) : join line es = line ++ fresh es := by
  cases es <;> simp [join, fresh]

/-- How many slots there are less than before, as a word : it wraps round if there are more. -/
def fewer (before after : Nat) : UInt64 := UInt64.ofNat before - UInt64.ofNat after

@[simp] theorem fewer_self (n : Nat) : fewer n n = 0 := UInt64.sub_self _

theorem fewer_zero (n : Nat) : fewer n 0 = UInt64.ofNat n := UInt64.sub_zero _

theorem toNat_fewer (before after : Nat) : (fewer before after).toNat =
    (UInt64.size - after % UInt64.size + before % UInt64.size) % UInt64.size := by
  rw [fewer, UInt64.toNat_sub, UInt64.toNat_ofNat', UInt64.toNat_ofNat']

theorem toNat_fewer_of_le {before after : Nat} (h : after ≤ before)
    (hbefore : before < UInt64.size) : (fewer before after).toNat = before - after := by
  rw [toNat_fewer]
  unfold UInt64.size at *
  omega

theorem toNat_fewer_of_lt {before after : Nat} (h : before < after)
    (hafter : after < UInt64.size) :
    (fewer before after).toNat = UInt64.size - (after - before) := by
  rw [toNat_fewer]
  unfold UInt64.size at *
  omega

example : fewer 1 2 = 18446744073709551615 := by decide

/-- What stays does not count. -/
theorem fewer_add_add (n before after : Nat) :
    fewer (before + n) (after + n) = fewer before after := by
  apply UInt64.toNat_inj.1
  rw [toNat_fewer, toNat_fewer]
  unfold UInt64.size
  omega

/-- The time line with more events. -/
def addAll (t : Timeline ε) (es : List ε) : Timeline ε := { t with slots := join t.slots es }

/-- The time line with one more event. -/
def add (t : Timeline ε) (e : ε) : Timeline ε := t.addAll [e]

/-- What has fired, oldest first. -/
def fired (t : Timeline ε) : List Firing := t.log.reverse

/-- Lets the events of a line act, one after another. -/
@[specialize] def runLine (go : Slot ε → Option (Slot ε × Effects ε)) :
    List (Slot ε) → Option (List (Slot ε) × Effects ε)
  | [] => some ([], {})
  | s :: rest => do
    let (s, fx) ← go s
    let (line, more) ← runLine go rest
    return (s :: line, fx ++ more)

/-- Visits the events of a line, then those that they bring on, and so on, in at most `waves`
waves. The events that are brought on are in the line and not in the effects. -/
def visitAll (fuel : Nat) (now : Beat) :
    (waves : Nat) → List (Slot ε) → Option (List (Slot ε) × Effects ε)
  | 0, _ => none
  | waves + 1, line => do
    let (line, fx) ← runLine (Slot.visit fuel now) line
    if fx.events.isEmpty then return (line, fx)
    let (later, more) ← visitAll fuel now waves (fresh fx.events)
    return (line ++ later, { fx with events := [] } ++ more)

/-- One tick at the beat of the clock. -/
def process (fuel : Nat) (t : Timeline ε) : Option (Timeline ε × List Notice) := do
  let now := t.clock.beat
  let (line, fx) ← visitAll fuel now fuel t.slots
  let (line, fx') ← runLine (Slot.retire fuel now) line
  let slots := join (line.filter (!·.isOver)) fx'.events
  return ({ t with slots, log := (fx ++ fx').firings.reverseAux t.log },
    (fx ++ fx').notices ++ [.ticked now (fewer line.length slots.length) slots.length])

/-- Moves the clock by `delta` beats, and ticks. -/
def advance (fuel : Nat) (delta : Beat) (t : Timeline ε) : Option (Timeline ε × List Notice) :=
  process fuel { t with clock := t.clock.advance delta }

/-- Moves the clock by a time at a tempo, and ticks. -/
def advanceSeconds (fuel : Nat) (seconds bpm : Float) (t : Timeline ε) :
    Option (Timeline ε × List Notice) :=
  process fuel { t with clock := t.clock.advanceSeconds seconds bpm }

/-- Moves the clock by what it lacks to a beat, and ticks. -/
def advanceTo (fuel : Nat) (beat : Beat) (t : Timeline ε) : Option (Timeline ε × List Notice) :=
  t.advance fuel (beat - t.clock.beat)

/-- What has fired, and the host without it. -/
def takeFired (t : Timeline ε) : List Firing × Timeline ε := (t.fired, { t with log := [] })

end Timeline

end Downbeat
