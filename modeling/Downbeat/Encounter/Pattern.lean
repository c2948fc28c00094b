import Downbeat.Subroutine

/-!
# Attack patterns

The attacks of an encounter follow one of four patterns, each of four beats. A roll picks
one of them (`Pattern.pick`) : the range of rolls is cut into four equal parts, and what
lies outside of it counts to the nearer end.
-/

namespace Downbeat

/-- An attack pattern. -/
inductive Pattern where
  | sweep
  | spiral
  | rain
  | pincer
deriving DecidableEq, Repr

namespace Pattern

/-- All patterns, in the order of the rolls that pick them. -/
def all : List Pattern := [sweep, spiral, rain, pincer]

/-- The name of a pattern. -/
def name : Pattern → String
  | sweep => "sweep"
  | spiral => "spiral"
  | rain => "rain"
  | pincer => "pincer"

/-- The pattern of a name. -/
def ofName? (s : String) : Option Pattern := all.find? (·.name == s)

theorem ofName?_name (p : Pattern) : ofName? p.name = some p := by cases p <;> rfl

/-- The place of a pattern in `all`. -/
def index : Pattern → Nat
  | sweep => 0
  | spiral => 1
  | rain => 2
  | pincer => 3

/-- The roll, or the nearer end of the range of rolls; NaN stays what it is. -/
def clamp (roll : Float) : Float := if roll < 0 then 0 else if 1 < roll then 1 else roll

/-- The quarter of the range in which a roll lies, from zero; the upper end is in the last
one, and NaN in the first. -/
def quarter (roll : Float) : Nat := min (clamp roll * 4).toUInt64.toNat 3

/-- The pattern that a roll picks. -/
def pick (roll : Float) : Pattern :=
  match quarter roll with
  | 0 => sweep
  | 1 => spiral
  | 2 => rain
  | _ => pincer

variable {ε φ : Type} [Embeds Cue ε]

/-- The entries of a pattern. -/
def entries : Pattern → List (Entry ε φ)
  | sweep =>
    [.cue (.bringOn "sweep-left"), .rest 2, .cue (.bringOn "sweep-right"), .rest 2]
  | spiral => [.cue (.moveCamera "spiral-zoom" 1.25 4), .cue (.bringOn "spiral"), .rest 4]
  | rain =>
    [.cue (.bringOn "rain-0"), .rest 1, .cue (.bringOn "rain-1"), .rest 1,
      .cue (.bringOn "rain-2"), .rest 1, .cue (.bringOn "rain-3"), .rest 1]
  | pincer =>
    [.cue (.light "pincer-glow" "violet"), .cue (.bringOn "pincer-open"), .rest 3,
      .cue (.bringOn "pincer-close"), .rest 1]

/-- Adds the entries of a pattern to a sequence. -/
def compose (p : Pattern) (s : Sequence ε φ) : Sequence ε φ := s.extend p.entries

end Pattern

end Downbeat
