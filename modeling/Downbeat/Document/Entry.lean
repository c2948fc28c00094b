import Downbeat.Encounter.Pattern
import Downbeat.Json.Typed
import Downbeat.Json.Written

/-!
# Documents of entries

Rests, markers and the names of patterns as JSON. A rest is a record of its duration, a
marker an object whose only key says what marker it is, and a pattern its bare name.
-/

namespace Downbeat

open Json

/-- The document of a rest. -/
def restDocument (duration : Beat) : Document := .object [("duration", .float duration)]

/-- Rests as records. -/
def restRecord : Record (Option Beat) Beat where
  name := "struct Rest"
  blank := none
  fields := [.make "duration" id (fun x _ => some x) (fun _ => Reader.float) false]
  finish d := require "duration" d

namespace Marker

/-- The document of a marker. -/
def document : Marker → Document
  | note text => .object [("Note", .text text)]
  | todo text => .object [("Todo", .text text)]
  | log text => .object [("Log", .text text)]

/-- The fault of a marker without its text. -/
def bare : Reader Marker := Reader.fail (.wrongType .unitVariant "newtype variant")

/-- Reads a marker. -/
def read : Nested Marker :=
  Reader.choice
    [("Note", bare, note <$> Reader.text), ("Todo", bare, todo <$> Reader.text),
      ("Log", bare, log <$> Reader.text)]

end Marker

namespace Pattern

/-- The document of a pattern. -/
def document (p : Pattern) : Document := .text p.name

/-- Reads a pattern. -/
def read : Nested Pattern :=
  Reader.choice (all.map fun p => (p.name, pure p, do Reader.unit; pure p))

end Pattern

end Downbeat
