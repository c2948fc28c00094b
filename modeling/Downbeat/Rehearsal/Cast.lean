import Downbeat.Encounter.Phase
import Downbeat.Event

/-!
# The cast of a rehearsal

A rehearsal tries out scripts and hosts without a game. Stand-ins take the place of the
events of a game : a silent one only takes up a place, a playing one notes each moment of
its life as a change of lights and brings on other events at it. Routines take the place of
the subroutines of a game.
-/

namespace Downbeat

mutual

/-- An event of a rehearsal that is neither cue nor script. -/
inductive StandIn where
  | silent (beat : Beat)
  /-- One that wants to go once it is updated at `leaveAt` or later, or `isDone` before. -/
  | playing (label : String) (beat width leaveAt : Beat) (isDone : Bool)
      (onStart onUpdate onFinish : List (Event StandIn Routine))

/-- A subroutine of a rehearsal. -/
inductive Routine where
  | phase (p : Phase)
  /-- The entries. -/
  | sequence (entries : List (Entry (Event StandIn Routine) Routine))
  /-- A camera cue for each beat of the context. -/
  | probe
  /-- The entries `count` times over, for ever without a count. -/
  | loop (count : Option Nat) (entries : List (Entry (Event StandIn Routine) Routine))
  /-- A camera cue for each of `n` rolls. -/
  | rolls (n : Nat)
  /-- A rest of one roll times `scale`. -/
  | restRoll (scale : Beat)
  /-- The entries for the pattern that a roll picks. -/
  | pick (branches : List (List (Entry (Event StandIn Routine) Routine)))
  /-- A pattern, or the one that a roll picks. -/
  | pattern (p : Option Pattern)

end

/-- An event of a rehearsal. -/
abbrev Act := Event StandIn Routine

/-- An entry of a rehearsal. -/
abbrev ActEntry := Entry Act Routine

/-! ## Stand-ins -/

namespace StandIn

instance : Placed StandIn where
  beat
    | silent b => b
    | playing _ b .. => b
  moveTo b
    | silent _ => silent b
    | playing label _ width leaveAt isDone s u f => playing label b width leaveAt isDone s u f
  refusal _ _ := []

/-- The name of a moment. -/
def momentName : Moment → String
  | .start => "start"
  | .update => "update"
  | .finish => "end"

/-- The note of a moment of a stand-in. -/
def firing (label : String) (beat now : Beat) (m : Moment) : Firing where
  label := label ++ ":" ++ momentName m
  kind := .lights (momentName m)
  scheduled := beat
  fired := now

instance : Hosted StandIn Act where
  width
    | silent _ => 0
    | playing _ _ width .. => width
  isDone
    | silent _ => false
    | playing _ _ _ _ isDone .. => isDone
  act _ m now
    | silent b => some (silent b, {})
    | playing label beat width leaveAt isDone s u f =>
      let isDone := isDone || (m == .update && leaveAt ≤ now)
      some (playing label beat width leaveAt isDone s u f,
        { events := match m with
            | .start => s
            | .update => u
            | .finish => f
          firings := [firing label beat now m] })

end StandIn

/-! ## Routines -/

namespace Routine

instance : Embeds Phase Routine := ⟨phase⟩

/-- The description of a routine that is known by name only. -/
def named (name : String) : String :=
  Text.described "FnFunction" [("name", Text.quoted name)]

instance : Described Routine where
  description
    | phase p => Described.description p
    | sequence _ => named "seq"
    | probe => named "probe"
    | loop .. => named "loop"
    | rolls _ => named "roll"
    | restRoll _ => named "rest_roll"
    | pick _ => named "pick"
    | pattern _ => named "pattern"

/-- A camera cue at beat zero. -/
def camera (label : String) (zoom : Float) : ActEntry := .cue { label, kind := .camera zoom }

instance : Subroutine Routine Act where
  expand r c rolls :=
    match r with
    | phase p => p.expand rolls
    | sequence es => (es, rolls)
    | probe =>
      ([camera "start" c.start, camera "runahead" c.runahead, camera "internal" c.internal,
        camera "current" c.now, camera "absolute" c.origin], rolls)
    | loop (some 0) _ => ([], rolls)
    | loop count es => (es ++ [.expand (loop (count.map (· - 1)) es)], rolls)
    | .rolls n =>
      let (xs, rolls) := rolls.drawMany n
      (xs.map (camera "roll"), rolls)
    | restRoll scale =>
      let (x, rolls) := rolls.draw
      ([.rest (x * scale)], rolls)
    | pick branches =>
      let (x, rolls) := rolls.draw
      (branches.getD (Pattern.pick x).index [], rolls)
    | pattern (some p) => (p.entries, rolls)
    | pattern none =>
      let (x, rolls) := rolls.draw
      ((Pattern.pick x).entries, rolls)

end Routine

end Downbeat
