import Downbeat.Event
import Downbeat.Proofs.Script.Join

/-!
# Bounds on work

What is done within a bound is done in the same way within a larger one, for events whose own
work is so (`Hosted.Steady`) : a visit, a tick (`Timeline.process_mono`). Cues and scripts are
steady, and so are the events of a show.
-/

namespace Downbeat

/-- Where a result of two steps comes from steps that also lead elsewhere, it is had there. -/
theorem bind_mono {α β : Type} {x y : Option α} {f g : α → Option β} {b : β}
    (h : (x >>= f) = some b) (hxy : ∀ a, x = some a → y = some a)
    (hfg : ∀ a, f a = some b → g a = some b) : (y >>= g) = some b := by
  obtain ⟨a, ha, hb⟩ := Option.bind_eq_some_iff.1 h
  exact Option.bind_eq_some_iff.2 ⟨a, hxy a ha, hfg a hb⟩

theorem map_mono {α β : Type} {x y : Option α} {f : α → β} {b : β} (h : x.map f = some b)
    (hxy : ∀ a, x = some a → y = some a) : y.map f = some b := by
  obtain ⟨a, ha, rfl⟩ := Option.map_eq_some_iff.1 h
  rw [hxy a ha, Option.map_some]

/-- Events that do within a larger bound what they do within a smaller one. -/
class Hosted.Steady (σ ε : Type) [Placed σ] [Hosted σ ε] : Prop where
  act_mono {n k : Nat} {m : Moment} {now : Beat} {s : σ} {x : σ × Effects ε} :
    n ≤ k → act n m now s = some x → act k m now s = some x

instance (ε : Type) : Hosted.Steady Cue ε := ⟨fun _ h => h⟩

instance (ε : Type) : Hosted.Steady Empty ε := ⟨fun {_ _ _ _ s} => nomatch s⟩

instance {ε φ : Type} [Placed ε] [Subroutine φ ε] [Described φ] :
    Hosted.Steady (Script ε φ) ε where
  act_mono {_ _ m _ _ _} hnk h := by
    cases m with
    | update => exact Script.tick_mono h hnk
    | start => exact h
    | finish => exact h

instance {κ φ : Type} [Placed κ] [Hosted κ (Event κ φ)] [Hosted.Steady κ (Event κ φ)]
    [Subroutine φ (Event κ φ)] [Described φ] : Hosted.Steady (Event κ φ) (Event κ φ) where
  act_mono {_ _ _ _ e _} hnk h := by
    cases e with
    | cue c => exact map_mono h fun _ => Hosted.Steady.act_mono hnk
    | script s => exact map_mono h fun _ => Hosted.Steady.act_mono hnk
    | guest k => exact map_mono h fun _ => Hosted.Steady.act_mono hnk

variable {ε : Type} [Placed ε] [Hosted ε ε] [Hosted.Steady ε ε] {n k : Nat} {now : Beat}

namespace Slot

variable {s : Slot ε} {x : Slot ε × Effects ε}

theorem begin_mono (hnk : n ≤ k) (h : s.begin n now = some x) : s.begin k now = some x := by
  unfold begin at h ⊢
  split at h
  · rwa [if_pos ‹_›]
  · rw [if_neg ‹_›]
    exact map_mono h fun _ => Hosted.Steady.act_mono hnk

theorem update_mono (hnk : n ≤ k) (h : s.update n now = some x) : s.update k now = some x :=
  map_mono h fun _ => Hosted.Steady.act_mono hnk

theorem finish_mono (hnk : n ≤ k) (h : s.finish n now = some x) : s.finish k now = some x :=
  map_mono h fun _ => Hosted.Steady.act_mono hnk

theorem run_mono (hnk : n ≤ k) (h : s.run n now = some x) : s.run k now = some x := by
  unfold run at h ⊢
  refine bind_mono h (fun _ => begin_mono hnk) fun (begun, _) h => ?_
  dsimp only at h ⊢
  split at h
  · rwa [if_pos ‹_›]
  · rw [if_neg ‹_›]
    refine bind_mono h (fun _ => update_mono hnk) fun (updated, _) h => ?_
    dsimp only at h ⊢
    split at h
    · rwa [if_pos ‹_›]
    · rw [if_neg ‹_›]
      exact bind_mono h (fun _ => finish_mono hnk) fun _ h => h

theorem visit_mono (hnk : n ≤ k) (h : s.visit n now = some x) : s.visit k now = some x := by
  unfold visit at h ⊢
  split at h
  · rwa [if_pos ‹_›]
  · rw [if_neg ‹_›]
    exact run_mono hnk h

theorem retire_mono (hnk : n ≤ k) (h : s.retire n now = some x) : s.retire k now = some x := by
  unfold retire at h ⊢
  split at h
  · rw [if_pos ‹_›]
    exact finish_mono hnk h
  · rwa [if_neg ‹_›]

end Slot

namespace Timeline

omit [Placed ε] [Hosted ε ε] [Hosted.Steady ε ε] in
theorem runLine_mono {go further : Slot ε → Option (Slot ε × Effects ε)} {line : List (Slot ε)}
    {r : List (Slot ε) × Effects ε} (hgo : ∀ s x, go s = some x → further s = some x)
    (h : runLine go line = some r) : runLine further line = some r := by
  induction line generalizing r with
  | nil => exact h
  | cons s rest ih =>
    exact bind_mono h (hgo s) fun _ h => bind_mono h (fun _ => ih) fun _ h => h

theorem visitAll_mono {waves more : Nat} {line : List (Slot ε)}
    {r : List (Slot ε) × Effects ε} (hnk : n ≤ k) (hwaves : waves ≤ more)
    (h : visitAll n now waves line = some r) : visitAll k now more line = some r := by
  induction waves generalizing more line r with
  | zero => cases h
  | succ waves ih =>
    obtain ⟨more, rfl⟩ := Nat.exists_eq_add_one_of_ne_zero (Nat.ne_zero_of_lt hwaves)
    rw [visitAll] at h ⊢
    refine bind_mono h (fun _ => runLine_mono fun _ _ => Slot.visit_mono hnk)
      fun (line', fx) h => ?_
    dsimp only at h ⊢
    split at h
    · rwa [if_pos ‹_›]
    · rw [if_neg ‹_›]
      exact bind_mono h (fun _ => ih (by omega)) fun _ h => h

/-- A tick that is done within a bound is done in the same way within a larger one. -/
theorem process_mono {t : Timeline ε} {r : Timeline ε × List Notice} (hnk : n ≤ k)
    (h : t.process n = some r) : t.process k = some r :=
  bind_mono h (fun _ => visitAll_mono hnk hnk) fun _ h =>
    bind_mono h (fun _ => runLine_mono fun _ _ => Slot.retire_mono hnk) fun _ h => h

end Timeline

end Downbeat
