import Downbeat.Script
import Downbeat.Timeline

/-!
# Events

The events of a show are cues and scripts, which may bring on further cues and scripts to
any depth. A host may add events of its own, of a type `κ`. The subroutines of the scripts
are of type `φ`.
-/

namespace Downbeat

/-- An event of a show. -/
inductive Event (κ φ : Type) where
  | cue (c : Cue)
  | script (s : Script (Event κ φ) φ)
  | guest (k : κ)

namespace Event

variable {κ φ : Type}

instance : Embeds Cue (Event κ φ) := ⟨cue⟩

instance [Placed κ] : Placed (Event κ φ) where
  beat
    | cue c => Placed.beat c
    | script s => Placed.beat s
    | guest k => Placed.beat k
  moveTo b
    | cue c => cue (Placed.moveTo b c)
    | script s => script (Placed.moveTo b s)
    | guest k => guest (Placed.moveTo b k)
  refusal b
    | cue c => Placed.refusal b c
    | script s => Placed.refusal b s
    | guest k => Placed.refusal b k

/-- What a member of another type does, as what an event does. -/
def lift {σ : Type} (wrap : σ → Event κ φ) (x : σ × Effects (Event κ φ)) :
    Event κ φ × Effects (Event κ φ) := (wrap x.1, x.2)

instance [Placed κ] [Hosted κ (Event κ φ)] [Subroutine φ (Event κ φ)] [Described φ] :
    Hosted (Event κ φ) (Event κ φ) where
  width
    | cue c => Hosted.width (Event κ φ) c
    | script s => Hosted.width (Event κ φ) s
    | guest k => Hosted.width (Event κ φ) k
  isDone
    | cue c => Hosted.isDone (Event κ φ) c
    | script s => Hosted.isDone (Event κ φ) s
    | guest k => Hosted.isDone (Event κ φ) k
  act fuel m now
    | cue c => (Hosted.act fuel m now c).map (lift cue)
    | script s => (Hosted.act fuel m now s).map (lift script)
    | guest k => (Hosted.act fuel m now k).map (lift guest)

end Event

/-- No event at all, for shows of cues and scripts only. -/
instance : Placed Empty := ⟨nofun, nofun, nofun⟩

instance (ε : Type) : Hosted Empty ε := ⟨nofun, nofun, nofun⟩

end Downbeat
