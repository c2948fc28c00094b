import Downbeat.Clock
import Downbeat.Decimal.Layout
import Downbeat.Text.Columns

/-!
# Cues

A cue tells the game that something is due : another music stem, an enemy, a move of the
camera, other lights. The host does not act on a cue; it writes down that the cue fired
(`Firing`), and `Firing.listing` is the line of a listing for it.
-/

namespace Downbeat

/-- What a cue is for. -/
inductive Cue.Kind where
  | stem (name : String)
  | spawn (pattern : String)
  | camera (zoom : Float)
  | lights (color : String)

/-- A cue at a beat. -/
structure Cue where
  beat : Beat := 0
  width : Beat := 0
  label : String
  kind : Cue.Kind

/-- A cue as it fired : when it was due and when the host got to it. -/
structure Firing where
  label : String
  kind : Cue.Kind
  scheduled : Beat
  fired : Beat

namespace Cue

/-- The note of a cue that fires at `now`. -/
def firing (c : Cue) (now : Beat) : Firing := ⟨c.label, c.kind, c.beat, now⟩

/-- A cue at beat zero that changes the music. -/
def playStem (label name : String) : Cue := { label, kind := .stem name }

/-- A cue at beat zero that brings on what it is called. -/
def bringOn (pattern : String) : Cue := { label := pattern, kind := .spawn pattern }

/-- A cue at beat zero that moves the camera for a while. -/
def moveCamera (label : String) (zoom : Float) (width : Beat) : Cue :=
  { label, kind := .camera zoom, width }

/-- A cue at beat zero that changes the lights. -/
def light (label color : String) : Cue := { label, kind := .lights color }

/-- What a cue is for, in a listing. -/
def Kind.detail : Kind → String
  | stem name => "stem " ++ name
  | spawn pattern => "spawn " ++ pattern
  | camera zoom => "camera zoom " ++ Decimal.plain.text zoom
  | lights color => "lights " ++ color

end Cue

/-- The line of a listing for a cue that fired. -/
def Firing.listing (f : Firing) : String :=
  Text.alignRight 8 (Decimal.fixed 2 f.scheduled) ++ "  " ++ Text.alignLeft 16 f.label ++ " " ++
    f.kind.detail

end Downbeat
