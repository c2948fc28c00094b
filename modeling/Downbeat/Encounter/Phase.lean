import Downbeat.Encounter.Pattern

/-!
# The encounter

An encounter opens with its own music, goes through loops of one attack pattern each, and
ends with an outro that stops the script. Each loop puts the next one behind its attack,
with one loop less to go; with no count of loops it goes on until it is stopped from
outside. As every attack rests, a drain gets through at most the loops that are due.
-/

namespace Downbeat

/-- What is to be set about an encounter. -/
structure EncounterSettings where
  name : String := "Warden"
  stem : String := "drums_a"
  /-- The number of loops. -/
  loops : Option UInt32 := some 4
deriving DecidableEq, Repr

/-- The parts of an encounter. -/
inductive Phase where
  | opening (settings : EncounterSettings)
  /-- The loops, of which `iteration` are over. -/
  | loop (remaining : Option UInt32) (iteration : UInt32)
  | outro
deriving DecidableEq, Repr

namespace Phase

/-- The description of the settings. -/
def settingsDescription (c : EncounterSettings) : String :=
  Text.described "EncounterConfig"
    [("name", Text.quoted c.name), ("stem", Text.quoted c.stem),
      ("loops", Text.describedOption (fun n => Nat.repr n.toNat) c.loops)]

instance : Described Phase where
  description
    | opening c => Text.described "Encounter" [("config", settingsDescription c)]
    | loop remaining iteration =>
      Text.described "PhaseLoop"
        [("remaining", Text.describedOption (fun n => Nat.repr n.toNat) remaining),
          ("iteration", Nat.repr iteration.toNat)]
    | outro => "Outro"

/-- The loops, none of which is over. -/
def loops (count : Option UInt32) : Phase := loop count 0

variable {ε φ : Type} [Embeds Cue ε] [Embeds Phase φ]

/-- The entry for a part of an encounter. -/
def entry (p : Phase) : Entry ε φ := .expand (Embeds.embed p)

/-- The entries of the opening. -/
def openingEntries (c : EncounterSettings) : List (Entry ε φ) :=
  [.marker (.log (c.name ++ " encounter begins")),
    .cue (.playStem "intro-stem" c.stem),
    .cue (.moveCamera "intro-camera" 1.5 4),
    .rest 4,
    .cue (.light "intro-lights" "red"),
    (loops c.loops).entry]

/-- The entries of the outro. -/
def outroEntries : List (Entry ε φ) :=
  [.cue (.playStem "outro-stem" "outro"),
    .cue (.light "outro-lights" "white"),
    .rest 4,
    .marker (.log "encounter cleared"),
    .stop]

/-- The entries of a loop that attacks by the pattern `p`. -/
def loopEntries (remaining : Option UInt32) (iteration : UInt32) (p : Pattern) :
    List (Entry ε φ) :=
  .marker (.note ("loop " ++ Nat.repr iteration.toNat ++ " plays " ++ p.name)) :: p.entries ++
    [(loop (remaining.map (· - 1)) (iteration + 1)).entry]

/-- The entries of a part, and the rolls that are left. -/
def expand (rolls : Rolls) : Phase → List (Entry ε φ) × Rolls
  | opening c => (openingEntries c, rolls)
  | loop (some 0) _ => ([outro.entry], rolls)
  | loop remaining iteration =>
    let (roll, rolls) := rolls.draw
    (loopEntries remaining iteration (Pattern.pick roll), rolls)
  | outro => (outroEntries, rolls)

instance (ε : Type) [Embeds Cue ε] : Subroutine Phase ε where
  expand p _ rolls := p.expand rolls

end Phase

end Downbeat
