import Downbeat.Document.Settings
import Downbeat.Rehearsal.Cast

/-!
# The desk

At the desk of a rehearsal there is one host and, beside it, room for one script that is not
yet on its time line. A rehearsal is a list of steps (`Desk.perform`), each of which tells
what it did (`Outcome`). Steps that need a script do nothing without one.
-/

namespace Downbeat

/-- The desk of a rehearsal. -/
structure Desk where
  script : Option (Script Act Routine) := none
  timeline : Timeline Act := {}

namespace Desk

/-- What can be done at the desk. -/
inductive Step where
  /-- Takes up a script. -/
  | hold (s : Script Act Routine)
  /-- Takes up a script with settings, unless they have a flaw. -/
  | holdSettings (c : ScriptSettings)
  | enqueue (es : List ActEntry)
  | seed (f : Routine)
  /-- Drains the script to the desk or to the host. -/
  | drain (now : Beat) (toHost : Bool)
  | stop
  | moveTo (b : Beat)
  /-- Hands the script to the host. -/
  | host
  | add (e : Act)
  | process
  | advance (delta : Beat) (times : Nat)
  | advanceTo (b : Beat)
  | advanceSeconds (seconds bpm : Float) (times : Nat)
  /-- Takes the log of the host. -/
  | takeFired

/-- What a step answers. -/
inductive Answer where
  | done
  | drained (r : Script.Report)
  | fault (f : Script.Fault)
  | flaw (f : Settings.Flaw)
  | taken (fs : List Firing)

/-- What a step did : the desk after it, its answer, the events that came to the desk, and
what was reported. -/
structure Outcome where
  desk : Desk
  answer : Answer := .done
  events : List Act := []
  notices : List Notice := []

/-- A step of the host. -/
def ticked (d : Desk) (x : Option (Timeline Act × List Notice)) : Option Outcome :=
  x.map fun (t, notices) => { desk := { d with timeline := t }, notices }

/-- The same step of the host several times. -/
def repeated (go : Timeline Act → Option (Timeline Act × List Notice)) :
    Nat → Timeline Act → Option (Timeline Act × List Notice)
  | 0, t => some (t, [])
  | n + 1, t => do
    let (t, notices) ← go t
    let (t, more) ← repeated go n t
    return (t, notices ++ more)

/-- A step of the script that only changes it. -/
def changed (d : Desk) (go : Script Act Routine → Script Act Routine × List Notice) : Outcome :=
  match d.script with
  | none => { desk := d }
  | some s => { desk := { d with script := some (go s).1 }, notices := (go s).2 }

/-- Drains the script. -/
def drained (fuel : Nat) (d : Desk) (now : Beat) (toHost : Bool) : Option Outcome :=
  match d.script with
  | none => some { desk := d }
  | some s =>
    (s.drain fuel now).map fun r =>
      { desk :=
          { script := some r.script
            timeline := if toHost then d.timeline.addAll r.effects.events else d.timeline }
        answer := match r.outcome with
          | .ok report => .drained report
          | .error f => .fault f
        events := if toHost then [] else r.effects.events
        notices := r.effects.notices }

/-- What a step does. It has no answer if it is more work than `fuel`. -/
def perform (fuel : Nat) (d : Desk) : Step → Option Outcome
  | .hold s => some { desk := { d with script := some s } }
  | .holdSettings c =>
    some (match c.script? with
      | .ok s => { desk := { d with script := some s } }
      | .error f => { desk := d, answer := .flaw f })
  | .enqueue es => some (d.changed fun s => (s.enqueue es, []))
  | .seed f => some (d.changed fun s => (s.seed f, []))
  | .drain now toHost => d.drained fuel now toHost
  | .stop => some (d.changed Script.stop)
  | .moveTo b => some (d.changed fun s => (Placed.moveTo b s, Placed.refusal b s))
  | .host =>
    some (match d.script with
      | none => { desk := d }
      | some s => { desk := { script := none, timeline := d.timeline.add (.script s) } })
  | .add e => some { desk := { d with timeline := d.timeline.add e } }
  | .process => d.ticked (d.timeline.process fuel)
  | .advance delta n => d.ticked (repeated (Timeline.advance fuel delta) n d.timeline)
  | .advanceTo b => d.ticked (d.timeline.advanceTo fuel b)
  | .advanceSeconds seconds bpm n =>
    d.ticked (repeated (Timeline.advanceSeconds fuel seconds bpm) n d.timeline)
  | .takeFired =>
    let (fs, t) := d.timeline.takeFired
    some { desk := { d with timeline := t }, answer := .taken fs }

/-- What the host added to its log in a step from `before` to `after`. -/
def newlyFired (before after : Desk) : List Firing :=
  (after.timeline.log.take (after.timeline.log.length - before.timeline.log.length)).reverse

/-- What an event does when it starts at its own beat. -/
def audition (fuel : Nat) (e : Act) : Option (Effects Act) :=
  (Hosted.act fuel .start (Placed.beat e) e).map (·.2)

end Desk

end Downbeat
