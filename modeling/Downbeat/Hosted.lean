import Downbeat.Cue
import Downbeat.Notice

/-!
# What a host can run

The host knows an event only by where it is (`Placed`), how long it lasts, whether it wants
to go, and what it does at the three moments of its life (`Hosted`). At each moment an
event may change itself, bring on other events, note that something fired, and report
(`Effects`). Some events may work for ever; they are given a bound on their work, and have
no answer if they are not done within it.
-/

namespace Downbeat

/-- Things that have a place on the time line and can be moved. -/
class Placed (σ : Type) where
  beat : σ → Beat
  moveTo : Beat → σ → σ
  /-- What is reported by a thing that does not move. -/
  refusal : Beat → σ → List Notice

/-- What an event or a script does to the world around it, each in order. -/
structure Effects (ε : Type) where
  events : List ε := []
  firings : List Firing := []
  notices : List Notice := []

namespace Effects

variable {ε : Type}

/-- The effects of one thing after another. -/
protected def append (a b : Effects ε) : Effects ε :=
  ⟨a.events ++ b.events, a.firings ++ b.firings, a.notices ++ b.notices⟩

instance : Append (Effects ε) := ⟨Effects.append⟩

@[simp] theorem events_append (a b : Effects ε) : (a ++ b).events = a.events ++ b.events := rfl

@[simp] theorem firings_append (a b : Effects ε) : (a ++ b).firings = a.firings ++ b.firings :=
  rfl

@[simp] theorem notices_append (a b : Effects ε) : (a ++ b).notices = a.notices ++ b.notices :=
  rfl

end Effects

/-- The moments at which an event acts. -/
inductive Moment where
  /-- The host gets to the beat of the event. -/
  | start
  /-- Every tick while the event lives. -/
  | update
  /-- The event has lasted its width, or wants to go. -/
  | finish
deriving DecidableEq, Repr

/-- Things that a host can run, and that bring on events of type `ε`. -/
class Hosted (σ ε : Type) [Placed σ] where
  width : σ → Beat
  /-- Whether the event wants to go. -/
  isDone : σ → Bool
  /-- What the event does at a moment, with the beat of the host. It is missing if the
  work is more than `fuel`. -/
  act : (fuel : Nat) → Moment → (now : Beat) → σ → Option (σ × Effects ε)

instance : Placed Cue where
  beat c := c.beat
  moveTo b c := { c with beat := b }
  refusal _ _ := []

/-- A cue fires when it starts, and does nothing else. -/
instance (ε : Type) : Hosted Cue ε where
  width c := c.width
  isDone _ := false
  act _ m now c :=
    match m with
    | .start =>
      some (c, { firings := [c.firing now], notices := [.fired c.label c.beat now] })
    | .update | .finish => some (c, {})

end Downbeat
