import Downbeat.Entry
import Downbeat.Decimal.Layout

/-!
# Notices

Scripts and their host report what they do as notices, of five levels of severity. What a
notice says is its `Notice.message` and its `Notice.fields`; a reader who asks for a level
gets the notices that are at least as severe (`Notice.isAtLeast`).
-/

namespace Downbeat

/-- Why a script cannot go on. -/
inductive Script.Fault where
  /-- A rest that is no number of beats or would move time back. -/
  | invalidRest (duration : Beat)
  /-- More entries than allowed without a rest that is not yet due. -/
  | limitReached (limit : Nat) (beat : Beat)

/-- The wording of a fault. -/
def Script.Fault.message : Script.Fault → String
  | invalidRest d =>
    "rest duration must be a non-negative number of beats, got " ++ Decimal.plain.text d
  | limitReached limit beat =>
    "drain at beat " ++ Decimal.plain.text beat ++ " exceeded " ++ Nat.repr limit ++
      " entries without resting"

/-- What scripts and their host report. -/
inductive Notice where
  /-- A script hands an event to the host. -/
  | injecting (script : String) (beat now : Beat)
  /-- A subroutine has been replaced by its entries. -/
  | expanding (script function : String) (entries : Nat) (internal : Beat)
  /-- A script got to a marker. -/
  | marked (script : String) (beat : Beat) (marker : Marker)
  /-- A script rests for now. -/
  | resting (script : String) (now wake : Beat) (pending : Nat)
  /-- A script will not go on. -/
  | stopped (script : String) (internal : Beat)
  /-- A script that has begun is not moved. -/
  | moveIgnored (script : String) (beat : Beat)
  /-- A script that the host runs cannot go on. -/
  | failed (script : String) (now : Beat) (fault : Script.Fault)
  /-- A cue fired. -/
  | fired (label : String) (beat now : Beat)
  /-- The host is done with a tick. What is removed is counted by a word, which wraps round where
  the tick leaves more events than it has visited. -/
  | ticked (beat : Beat) (removed : UInt64) (live : Nat)

/-- How severe a notice is. -/
inductive Level where
  | error
  | warn
  | info
  | debug
  | trace
deriving DecidableEq, Repr

namespace Level

/-- The rank of a level, from the most severe one. -/
def rank : Level → Nat
  | error => 0
  | warn => 1
  | info => 2
  | debug => 3
  | trace => 4

/-- The name of a level. -/
def name : Level → String
  | error => "error"
  | warn => "warn"
  | info => "info"
  | debug => "debug"
  | trace => "trace"

/-- All levels, from the most severe one. -/
def all : List Level := [error, warn, info, debug, trace]

/-- The level of a name. -/
def ofName? (s : String) : Option Level := all.find? (·.name == s)

theorem ofName?_name (l : Level) : ofName? l.name = some l := by cases l <;> rfl

end Level

namespace Notice

/-- The value of a field. -/
inductive Datum where
  | text (s : String)
  | beat (x : Beat)
  | count (n : Nat)

/-- The level of a notice. -/
def level : Notice → Level
  | injecting .. => .trace
  | expanding .. => .debug
  | marked _ _ (.note _) => .debug
  | marked _ _ (.todo _) => .warn
  | marked _ _ (.log _) => .info
  | resting .. => .debug
  | stopped .. => .info
  | moveIgnored .. => .debug
  | failed .. => .error
  | fired .. => .debug
  | ticked .. => .trace

/-- Whether a notice is at least as severe as a level. -/
def isAtLeast (l : Level) (n : Notice) : Bool := n.level.rank ≤ l.rank

/-- The wording of a notice. -/
def message : Notice → String
  | injecting .. => "injecting event"
  | expanding .. => "expanding function"
  | marked _ _ (.note text) => text
  | marked _ _ (.todo _) => "unfinished script section"
  | marked _ _ (.log text) => text
  | resting .. => "script resting"
  | stopped .. => "script stopped"
  | moveIgnored .. => "ignoring move of a script that already drained"
  | failed .. => "script drain failed"
  | fired .. => "cue fired"
  | ticked .. => "tick"

/-- The fields of a notice. -/
def fields : Notice → List (String × Datum)
  | injecting script beat now =>
    [("script", .text script), ("beat", .beat beat), ("now", .beat now)]
  | expanding script function entries internal =>
    [("script", .text script), ("function", .text function), ("entries", .count entries),
      ("internal_beat", .beat internal)]
  | marked script beat (.todo text) =>
    [("script", .text script), ("beat", .beat beat), ("todo", .text text)]
  | marked script beat _ => [("script", .text script), ("beat", .beat beat)]
  | resting script now wake pending =>
    [("script", .text script), ("now", .beat now), ("resting_until", .beat wake),
      ("pending", .count pending)]
  | stopped script internal => [("script", .text script), ("internal_beat", .beat internal)]
  | moveIgnored script beat => [("script", .text script), ("beat", .beat beat)]
  | failed script now fault =>
    [("script", .text script), ("now", .beat now), ("err", .text fault.message)]
  | fired label beat now => [("label", .text label), ("beat", .beat beat), ("now", .beat now)]
  | ticked beat removed live =>
    [("beat", .beat beat), ("removed", .count removed.toNat), ("live", .count live)]

end Notice

end Downbeat
