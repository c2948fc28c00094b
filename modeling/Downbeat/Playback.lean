import Downbeat.Event
import Downbeat.Settings

/-!
# Playing an encounter

An encounter is played by a host with one script. The clock is driven tick by tick until it
has reached the length of the show, and what fired is the outcome (`Playback.fired`).
-/

namespace Downbeat.Playback

/-- An event of a show that is nothing but an encounter. -/
abbrev ShowEvent := Event Empty Phase

/-- The script of an encounter. -/
def script (c : Settings) : Script ShowEvent Phase :=
  { c.script.script with label := c.encounter.name }.seed (.opening c.encounter)

/-- The host before the first tick. -/
def opening (c : Settings) : Timeline ShowEvent :=
  Timeline.add {} (.script (script c))

/-- Ticks until the clock has reached the length of the show, at most `ticks` times. -/
def drive (fuel : Nat) (c : PlaybackSettings) :
    (ticks : Nat) → Timeline ShowEvent → Option (Timeline ShowEvent)
  | ticks, t =>
    if t.clock.beat < c.lengthBeats then
      match ticks with
      | 0 => none
      | ticks + 1 => do
        let (t, _) ← t.advanceSeconds fuel c.tickSeconds c.bpm
        drive fuel c ticks t
    else some t

/-- What fires in a show with the settings. It is missing if playing is more work than
`fuel`. -/
def fired (fuel : Nat) (c : Settings) : Option (List Firing) :=
  (drive fuel c.playback fuel (opening c)).map (·.fired)

end Downbeat.Playback
