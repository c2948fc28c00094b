import Downbeat.Encounter.Phase
import Downbeat.Script

/-!
# Settings

What can be set about a show : the timing of its script, how the clock is driven, and the
encounter that is played. Settings that make no sense are refused with the first flaw
(`Settings.check`). The clock is driven in ticks of a number of beats, which the tempo turns
into seconds.
-/

namespace Downbeat

/-- What is to be set about a script. -/
structure ScriptSettings where
  start : Beat := 8
  runahead : Beat := 2
  seed : UInt64 := 0x5eed
  /-- How many entries one drain may work off. -/
  limit : Option Nat := some 10000

/-- What is to be set about the clock. -/
structure PlaybackSettings where
  bpm : Float := 128
  /-- The beats from one tick to the next. -/
  tickBeats : Beat := 0.25
  lengthBeats : Beat := 96

/-- All settings of a show. -/
structure Settings where
  script : ScriptSettings := {}
  playback : PlaybackSettings := {}
  encounter : EncounterSettings := {}

/-- A reason for which settings make no sense. -/
inductive Settings.Flaw where
  | startNotFinite
  | badRunahead (x : Beat)
  | zeroLimit
  | badTempo
  | badTick
  | negativeLength

/-- The wording of a flaw. -/
def Settings.Flaw.message : Settings.Flaw → String
  | startNotFinite => "start_beat must be finite"
  | badRunahead x =>
    "beat_runahead must be a non-negative number of beats, got " ++ Decimal.plain.text x
  | zeroLimit => "max_drain_steps must be at least 1"
  | badTempo => "bpm must be positive"
  | badTick => "tick_beats must be positive"
  | negativeLength => "length_beats must not be negative"

/-- Whether a number is positive and finite. -/
def isPositive (x : Float) : Bool := x.isFinite && 0 < x

namespace ScriptSettings

/-- The first flaw of the settings, if any. -/
def check (c : ScriptSettings) : Except Settings.Flaw Unit :=
  if !c.start.isFinite then .error .startNotFinite
  else if !c.runahead.isFinite || c.runahead < 0 then .error (.badRunahead c.runahead)
  else if c.limit = some 0 then .error .zeroLimit
  else .ok ()

/-- A script with the settings and with nothing in its queue. -/
def script {ε φ : Type} (c : ScriptSettings) : Script ε φ :=
  { start := c.start, runahead := c.runahead, rolls := .ofSeed c.seed, limit := c.limit }

/-- A script with the settings, unless they have a flaw. -/
def script? {ε φ : Type} (c : ScriptSettings) : Except Settings.Flaw (Script ε φ) :=
  c.check.map fun _ => c.script

end ScriptSettings

namespace PlaybackSettings

/-- The first flaw of the settings, if any. -/
def check (c : PlaybackSettings) : Except Settings.Flaw Unit :=
  if !isPositive c.bpm then .error .badTempo
  else if !isPositive c.tickBeats then .error .badTick
  else if c.lengthBeats.isNaN || c.lengthBeats < 0 then .error .negativeLength
  else .ok ()

/-- The seconds from one tick to the next. -/
def tickSeconds (c : PlaybackSettings) : Float := c.tickBeats * 60 / c.bpm

end PlaybackSettings

/-- The first flaw of the settings, if any. -/
def Settings.check (c : Settings) : Except Settings.Flaw Unit :=
  match c.script.check with
  | .error flaw => .error flaw
  | .ok () => c.playback.check

end Downbeat
