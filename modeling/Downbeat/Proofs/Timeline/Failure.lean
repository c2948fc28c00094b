import Downbeat.Proofs.Script.Tidy
import Downbeat.Proofs.Timeline.Patience
import Downbeat.Proofs.Timeline.Round

/-!
# Scripts that fail

On its own a script survives a rest of no valid length, which costs no more than itself
(`Script.exists_recovers`). On a time line a script whose drain ends with a fault is stopped, and
is removed in the same tick, but what it has brought on before stays (`Chronicle.Round.fails`).
Both are said of all scripts in `Script.invalid_rest_costs_itself`.
-/

set_option linter.unusedSectionVars false

namespace Downbeat

variable {α κ φ : Type} [Placed κ] [Hosted κ (Event κ φ)] [Subroutine φ (Event κ φ)] [Described φ]

/-- A script whose drain ends with a fault is stopped in its visit, and leaves in the same tick. -/
theorem Event.fares_of_error {s : Script (Event κ φ) φ} {started : Bool} {fuel : Nat} {now : Beat}
    {d : Script.Drained (Event κ φ) φ} {f : Script.Fault} {s₁ s₂ : Slot (Event κ φ)}
    {fx₁ fx₂ : Effects (Event κ φ)} (hdue : (⟨script s, started, false⟩ : Slot _).IsDue now)
    (hd : s.drain fuel now = some d) (hf : d.outcome = .error f)
    (hvisit : (⟨script s, started, false⟩ : Slot _).visit fuel now = some (s₁, fx₁))
    (hretire : s₁.retire fuel now = some (s₂, fx₂)) :
    s₂ = ⟨script d.script.stop.1, true, true⟩ ∧ fx₁.events = d.effects.events := by
  have htick : s.tick fuel now = some (d.script.stop.1,
      d.effects ++ { notices := .failed s.label now f :: d.script.stop.2 }) := by
    rw [Script.tick, hd, Option.map_some, hf]
  obtain ⟨hearly, -, -⟩ | ⟨-, s', htick', rfl⟩ := visit_script_cases hvisit
  · simp only [Bool.and_eq_true, Bool.not_eq_true'] at hearly
    have hlate : decide (now < Placed.beat s) = false := hdue hearly.1
    rw [hlate] at hearly
    exact absurd hearly.2 Bool.false_ne_true
  rw [htick] at htick'
  obtain ⟨rfl, rfl⟩ := Prod.mk.inj (Option.some.inj htick')
  refine ⟨?_, List.append_nil _⟩
  have hdone : Hosted.isDone (Event κ φ) (script d.script.stop.1 : Event κ φ) = true := rfl
  unfold Slot.retire at hretire
  split at hretire
  · cases hretire
    rfl
  · -- it has ended in its visit
    rename_i hstays
    cases hretire
    simp only [hdone, Bool.true_and, Bool.and_true, Bool.not_eq_true', Bool.not_eq_false] at hstays
    rw [hstays]

namespace Chronicle

open Life

namespace Round

/-- In the round a script fails whose part is `x`, and whose drain there is `d`. -/
structure Fails (c : Chronicle α (Event κ φ)) (parts : List (Part α (Event κ φ)))
    (c' : Chronicle α (Event κ φ)) (x : Part α (Event κ φ))
    (d : Script.Drained (Event κ φ) φ) : Prop where
  stopped : (x.after c.ticks c.clock.beat).slot = ⟨.script d.script.stop.1, true, true⟩
  removed : x.after c.ticks c.clock.beat ∈ c'.gone ∧ x.after c.ticks c.clock.beat ∉ c'.live
  /-- All that the script has brought on before has a part in the same round, and stays on the line
  unless it is over by itself. -/
  kept : ∃ kept : List (Part α (Event κ φ)), kept.Sublist parts ∧
    kept.map (·.life) = newborns x.life.owner c.ticks d.effects.events ∧
    ((kept.map (·.after c.ticks c.clock.beat)).filter (!·.slot.isOver)).Sublist c'.live

variable {fuel : Nat} {c c' : Chronicle α (Event κ φ)} {parts : List (Part α (Event κ φ))}
  {x : Part α (Event κ φ)}

theorem fails (h : c.Round fuel parts c') (hx : x ∈ parts) (hended : x.life.slot.ended = false)
    (hdue : x.life.slot.IsDue c.clock.beat) {s : Script (Event κ φ) φ}
    (hs : x.life.slot.event = .script s) {d : Script.Drained (Event κ φ) φ} {f : Script.Fault}
    (hd : s.drain fuel c.clock.beat = some d) (hf : d.outcome = .error f) :
    Fails c parts c' x d := by
  obtain ⟨hvisit, hretire⟩ := (h.played x hx).tick_bare
  obtain ⟨⟨owner, arrival, ⟨e, started, ended⟩, days⟩, visit, sweep⟩ := x
  cases hended
  cases hs
  obtain ⟨hslot, hevents⟩ := Event.fares_of_error hdue hd hf hvisit hretire
  have hover : sweep.1.bare.isOver = true := by
    rw [hslot]
    rfl
  refine ⟨hslot, ⟨?_, fun hlive => ?_⟩, ?_⟩
  · rw [h.gone]
    exact List.mem_append_right _ (List.mem_filter.2 ⟨List.mem_map_of_mem hx, hover⟩)
  · rw [h.live, List.mem_append, List.mem_filter] at hlive
    obtain ⟨-, hstays⟩ | hnew := hlive
    · rw [Bool.not_eq_true'] at hstays
      exact Bool.false_ne_true (hstays.symm.trans hover)
    · -- an event that has just come has no day behind it
      have hnone := (isNew_of_mem_heirs _ hnew).days
      exact List.append_ne_nil_of_right_ne_nil _ (List.cons_ne_nil _ _) hnone
  · have hborn := h.newborns_visit hx
    rw [show visit.2.events = _ from hevents, List.sublist_map_iff] at hborn
    obtain ⟨kept, hkept, hlives⟩ := hborn
    refine ⟨kept, hkept, hlives.symm, ?_⟩
    rw [h.live]
    exact ((hkept.map _).filter _).trans (List.sublist_append_left _ _)

end Round

end Chronicle

namespace Script

open Chronicle

/-- A rest of no valid length costs no more than itself. Drains of a script without a limit that
are made until one ends well do what one drain of the tidied script does, if that one ends; the
clocks are always as the last valid rest has set them; and on a time line a script whose drain ends
with a fault goes, and what it has brought on before stays. -/
theorem invalid_rest_costs_itself (s : Script (Event κ φ) φ) :
    (∀ {now : Beat} {fuel : Nat} {d : Drained (Event κ φ) (Tidied φ)}, s.limit = none →
      s.tidied.drain fuel now = some d →
        (∃ report, d.outcome = .ok report) ∧ ∃ fuel' r, s.Recovers now fuel' r d) ∧
    (∀ {fuel : Nat} {nows : List Beat} {r : Series (Event κ φ) φ},
      s.drainAll fuel nows = some r →
        r.script.clocks = (r.passes.filterMap Pass.clocks?).getLast?.getD s.clocks) ∧
    ∀ {c c' : Chronicle α (Event κ φ)} {fuel : Nat}, (∀ l ∈ c.live, l.slot.ended = false) →
      c.process fuel = some c' → ∃ parts, c.Round fuel parts c' ∧ ∀ x ∈ parts, ∀ {d f},
        x.life.slot.event = .script s → x.life.slot.IsDue c.clock.beat →
        s.drain fuel c.clock.beat = some d → d.outcome = .error f → Round.Fails c parts c' x d := by
  refine ⟨exists_recovers, clocks_of_drainAll, fun hc h => ?_⟩
  obtain ⟨parts, hround⟩ := exists_round_of_process h
  exact ⟨parts, hround, fun x hx d f hs hdue hd hf =>
    hround.fails hx (hround.ended hc x hx) hdue hs hd hf⟩

/-- A script with rests of no valid length, one of which a subroutine brings on. -/
def fragile : Script Act Routine :=
  { start := 2
    runahead := 1
    queue := .ofList [.cue (.light "dusk" "blue"), .rest 1, .rest (-1),
      .expand (.sequence [.rest (0 / 0), .cue (.playStem "in" "drums"), .rest 40]),
      .marker (.log "up")] }

/-- A host on which the script is due. -/
def infirmary : Chronicle Unit Act :=
  { clock := { beat := 6 }
    live := [{ owner := (), arrival := 0, slot := { event := .script fragile } }] }

theorem invalid_rest_costs_itself_fragile :
    (∃ d, fragile.tidied.drain 20 6 = some d ∧ (∃ report, d.outcome = .ok report) ∧
      ∃ fuel' r, fragile.Recovers 6 fuel' r d) ∧
    (∃ r, fragile.drainAll 20 [6, 6] = some r ∧
      r.script.clocks = (r.passes.filterMap Pass.clocks?).getLast?.getD fragile.clocks) ∧
    ∃ c', infirmary.process 20 = some c' ∧ ∃ parts, infirmary.Round 20 parts c' ∧
      ∃ x ∈ parts, ∃ d, fragile.drain 20 6 = some d ∧ Round.Fails infirmary parts c' x d := by
  obtain ⟨hrecovers, hclocks, hfails⟩ := invalid_rest_costs_itself (α := Unit) fragile
  refine ⟨?_, ?_, ?_⟩
  · have hs : (fragile.tidied.drain 20 6).isSome := by decide +kernel
    obtain ⟨d, hd⟩ := Option.isSome_iff_exists.1 hs
    exact ⟨d, hd, hrecovers rfl hd⟩
  · have hs : (fragile.drainAll 20 [6, 6]).isSome := by decide +kernel
    obtain ⟨r, hr⟩ := Option.isSome_iff_exists.1 hs
    exact ⟨r, hr, hclocks hr⟩
  · have hs : (infirmary.process 20).isSome := by decide +kernel
    obtain ⟨c', hc'⟩ := Option.isSome_iff_exists.1 hs
    have hended : ∀ l ∈ infirmary.live, l.slot.ended = false := by
      intro l hl
      obtain rfl := List.mem_singleton.1 hl
      rfl
    obtain ⟨parts, hround, hparts⟩ := hfails hended hc'
    have hdrain : (fragile.drain 20 6).map (·.outcome.isOk) = some false := by decide +kernel
    obtain ⟨d, hd, hok⟩ := Option.map_eq_some_iff.1 hdrain
    obtain ⟨f, hf⟩ : ∃ f, d.outcome = .error f := by
      cases hd' : d.outcome with
      | error f => exact ⟨f, rfl⟩
      | ok report => simp [hd', Except.isOk, Except.toBool] at hok
    -- the script is on the line, so it has a part in the round
    have hmem : (⟨(), 0, { event := .script fragile }, []⟩ : Life Unit Act) ∈
        parts.map (·.life) := by
      rw [hround.lives]
      exact List.mem_append_left _ List.mem_cons_self
    obtain ⟨x, hx, hlife⟩ := List.mem_map.1 hmem
    have hevent : x.life.slot.event = .script fragile := by rw [hlife]
    have hdue : x.life.slot.IsDue infirmary.clock.beat := by
      rw [hlife]
      exact fun _ => by decide +kernel
    exact ⟨c', hc', parts, hround, x, hx, d, hd, hparts x hx hevent hdue hd hf⟩

end Script

end Downbeat
