import Downbeat.Chance.Rolls
import Downbeat.Cue
import Downbeat.Entry
import Downbeat.Text.Description

/-!
# Subroutines

A subroutine is turned into entries only when a script gets to it. It then sees where the
script stands (`Context`) and may draw rolls, and its entries are in beats since
`Context.origin`. A type of subroutines is any type with an interpretation
(`Subroutine.expand`), so one that comes back to itself is a name like any other.
-/

namespace Downbeat

/-- Where a script stands when it gets to a subroutine. -/
structure Context where
  /-- The beat at which the time of the script is zero. -/
  start : Beat
  /-- How far the script works ahead. -/
  runahead : Beat
  /-- The time of the script. -/
  internal : Beat
  /-- The beat of the host. -/
  now : Beat

namespace Context

/-- The beat at which the entries of the subroutine begin. -/
def origin (c : Context) : Beat := c.start + c.internal

/-- The description of a context. -/
def description (c : Context) : String :=
  Text.described "ScriptContext"
    [("start_beat", Decimal.descriptive.text c.start),
      ("beat_runahead", Decimal.descriptive.text c.runahead),
      ("internal_beat", Decimal.descriptive.text c.internal),
      ("current_beat", Decimal.descriptive.text c.now)]

end Context

/-- Subroutines of type `φ` over events of type `ε`. -/
class Subroutine (φ ε : Type) where
  /-- The entries of a subroutine, and the rolls that are left. -/
  expand : φ → Context → Rolls → List (Entry ε φ) × Rolls

/-- Things that have a description. -/
class Described (α : Type) where
  description : α → String

/-- A type whose members serve as members of another one. -/
class Embeds (α β : Type) where
  embed : α → β

instance (α : Type) : Embeds α α := ⟨id⟩

/-- The entry for an event that is a cue. -/
def Entry.cue {ε φ : Type} [Embeds Cue ε] (c : Cue) : Entry ε φ := .event (Embeds.embed c)

end Downbeat
