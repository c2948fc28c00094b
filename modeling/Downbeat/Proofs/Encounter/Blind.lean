import Downbeat.Playback
import Downbeat.Proofs.Script.Turn

/-!
# The encounter looks at nothing

The parts of an encounter are the same wherever their script stands, and lead to nothing but
cues at beat zero and to one another (`Phase.respects_of_zero`). So all that holds of scripts whose
subroutines do not look at how far the script works ahead, or at the clock of the host, holds of the
script of an encounter.
-/

namespace Downbeat.Phase

variable {ε : Type} [Embeds Cue ε]

theorem within_of_mem_loopEntries {Q : ε → Prop} (hQ : ∀ c : Cue, c.beat = 0 → Q (Embeds.embed c))
    (remaining : Option UInt32) (iteration : UInt32) (p : Pattern) :
    ∀ e ∈ (loopEntries remaining iteration p : List (Entry ε Phase)), e.Within Q fun _ => True := by
  cases p <;> simp [loopEntries, Pattern.entries, Entry.Within, Entry.cue, hQ, entry,
    Cue.bringOn, Cue.moveCamera, Cue.light]

/-- An entry of a part of an encounter is a cue at beat zero, a part, or no event at all. -/
theorem within_of_mem_expand {Q : ε → Prop} (hQ : ∀ c : Cue, c.beat = 0 → Q (Embeds.embed c))
    (p : Phase) (rolls : Rolls) : ∀ e ∈ (p.expand rolls : List (Entry ε Phase) × Rolls).1,
      e.Within Q fun _ => True := by
  unfold expand
  split
  · simp [openingEntries, Entry.Within, Entry.cue, hQ, entry, Cue.playStem, Cue.moveCamera,
      Cue.light]
  · simp [Entry.Within, entry]
  · exact within_of_mem_loopEntries hQ _ _ _
  · simp [outroEntries, Entry.Within, Entry.cue, hQ, Cue.playStem, Cue.light]

theorem respects_of_zero (A : Context → Context → Prop) {Q : ε → Prop}
    (hQ : ∀ c : Cue, c.beat = 0 → Q (Embeds.embed c)) :
    Subroutine.Respects A Q fun _ : Phase => True where
  expand_eq _ _ _ := rfl
  within _ _ rolls := within_of_mem_expand hQ _ rolls

theorem respects (A : Context → Context → Prop) {Q : ε → Prop}
    (hQ : ∀ c : Cue, Q (Embeds.embed c)) :
    Subroutine.Respects A Q fun _ : Phase => True :=
  respects_of_zero A fun c _ => hQ c

end Downbeat.Phase
