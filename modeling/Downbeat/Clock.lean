/-!
# The beat clock

Everything in a show is placed in musical beats and runs against one clock. The clock
only moves forward : a negative step, and one that is not a number, leave it where it is
(`Clock.forward`). A step measured in seconds is turned into beats by the tempo.
-/

namespace Downbeat

/-- A position or a length in beats. -/
abbrev Beat := Float

/-- The clock of a show. -/
structure Clock where
  beat : Beat := 0

namespace Clock

/-- The part of a step that moves time on. -/
def forward (delta : Beat) : Beat :=
  if 0 < delta then delta else 0

/-- The clock after a step of `delta` beats. -/
def advance (c : Clock) (delta : Beat) : Clock :=
  ⟨c.beat + forward delta⟩

/-- The clock after a step of `seconds` at `bpm` beats a minute. -/
def advanceSeconds (c : Clock) (seconds bpm : Float) : Clock :=
  c.advance (seconds * bpm / 60)

/-- The clock back at the start. -/
def reset (_ : Clock) : Clock := ⟨0⟩

theorem beat_advance (c : Clock) (delta : Beat) :
    (c.advance delta).beat = c.beat + forward delta := rfl

theorem beat_advanceSeconds (c : Clock) (seconds bpm : Float) :
    (c.advanceSeconds seconds bpm).beat = c.beat + forward (seconds * bpm / 60) := rfl

end Clock

end Downbeat
