import Downbeat.Event
import Downbeat.Proofs.Script.Steady

/-!
# Scripts within scripts

A script that another one hands over is moved as an event is, by what it works ahead before its
start, and so its time begins at its own start after the time of the other, whatever either of them
works ahead. While no sum is rounded, an idle script becomes, bit for bit, the new script that
stands alone there (`Script.moveTo_eq_standalone`).
-/

set_option linter.unusedSectionVars false

namespace Downbeat

/-- The time of a script does not come to be the zero below zero. -/
theorem not_isMinusZero_elapsed {ε φ : Type} {time : Beat} (h : ¬Beat.IsMinusZero time)
    (es : List (Entry ε φ)) : ¬Beat.IsMinusZero (elapsed time es) := by
  induction es generalizing time with
  | nil => exact h
  | cons e es ih =>
    rw [elapsed_cons]
    refine ih ?_
    rw [elapsed_singleton]
    cases e.rest? with
    | none => exact h
    | some d => exact Beat.not_isMinusZero_add (.inl h)

namespace Script

section

variable {ε φ : Type}

/-- A new script that is made as `w` is, but that starts later. -/
def standalone (w : Script ε φ) (delay : Beat) : Script ε φ where
  label := w.label
  start := w.start + delay
  runahead := w.runahead
  queue := w.queue
  rolls := w.rolls
  limit := w.limit

/-- The script has done nothing. -/
structure IsIdle (w : Script ε φ) : Prop where
  begun : w.begun = false
  stopped : w.stopped = false
  internal : w.internal = 0

instance (w : Script ε φ) : Decidable w.IsIdle :=
  decidable_of_iff (w.begun = false ∧ w.stopped = false ∧ w.internal = 0)
    ⟨fun ⟨hbegun, hstopped, hinternal⟩ => ⟨hbegun, hstopped, hinternal⟩,
      fun ⟨hbegun, hstopped, hinternal⟩ => ⟨hbegun, hstopped, hinternal⟩⟩

theorem moveTo_of_begun_eq_false {w : Script ε φ} (h : w.begun = false) (b : Beat) :
    Placed.moveTo b w = { w with start := b + w.runahead, restUntil := b } :=
  if_neg (by simp [h])

end

variable {κ φ : Type} [Placed κ] [Subroutine φ (Event κ φ)] [Described φ]

/-- If the script hands over another one, that one is idle, and no sum is rounded that places
it. -/
def Pass.IsAdopting (p : Pass (Event κ φ) φ) : Prop :=
  match p.entry with
  | .event (.script w) =>
    w.IsIdle ∧ Beat.IsExact w.start (-w.runahead) ∧ Beat.IsExact (p.due (.script w)) w.runahead ∧
      Beat.IsExact p.script.start p.script.internal
  | _ => True

instance (p : Pass (Event κ φ) φ) : Decidable p.IsAdopting := by
  unfold Pass.IsAdopting
  split <;> infer_instance

/-- A script that is handed over starts at its own start after the time of the other. -/
theorem value_start_moveTo {p : Pass (Event κ φ) φ} {w : Script (Event κ φ) φ}
    (he : p.entry = .event (.script w)) (hexact : p.IsExact) (hadopting : p.IsAdopting) :
    Beat.value (p.due (.script w)) = Beat.value w.start + Beat.value p.script.start +
        Beat.value p.script.internal - Beat.value w.runahead ∧
      Beat.value (p.due (.script w) + w.runahead) =
        Beat.value w.start + Beat.value p.script.start + Beat.value p.script.internal := by
  simp only [Pass.IsAdopting, he] at hadopting
  obtain ⟨-, hbeat, hahead, -⟩ := hadopting
  have hown : Placed.beat (.script w : Event κ φ) = w.start + -w.runahead :=
    Beat.sub_eq_add_neg _ _
  have hdue : Beat.value (p.due (.script w)) = Beat.value w.start + Beat.value p.script.start +
      Beat.value p.script.internal - Beat.value w.runahead := by
    rw [(Pass.value_due hexact he).2, hown, hbeat.value_eq, Beat.value_neg]
    ring
  refine ⟨hdue, ?_⟩
  rw [hahead.value_eq, hdue]
  ring

/-- An idle script that is handed over is, as it is placed, the new script that starts by the start
and the time of the other later. -/
theorem moveTo_eq_standalone {p : Pass (Event κ φ) φ} {w : Script (Event κ φ) φ}
    (he : p.entry = .event (.script w)) (hexact : p.IsExact) (hadopting : p.IsAdopting)
    (htime : ¬Beat.IsMinusZero p.script.internal) : Placed.moveTo (p.due (.script w)) w =
      w.standalone (p.script.start + p.script.internal) := by
  obtain ⟨hdue, hstart⟩ := value_start_moveTo he hexact hadopting
  obtain ⟨hdueFinite, -⟩ := Pass.value_due hexact he
  simp only [Pass.IsAdopting, he] at hadopting
  obtain ⟨⟨hbegun, hstopped, hinternal⟩, hbeat, hahead, hdelay⟩ := hadopting
  -- the same sums in another order
  have hsame : Beat.value (p.due (.script w) + w.runahead) =
      Beat.value w.start + Beat.value (p.script.start + p.script.internal) := by
    rw [hstart, hdelay.value_eq]
    ring
  have hlate := Beat.isExact_of_value_eq hbeat.1 hdelay.isFinite hsame
  have hrest : Beat.value (p.due (.script w)) =
      Beat.value (w.start + (p.script.start + p.script.internal)) + Beat.value (-w.runahead) := by
    rw [hdue, hlate.value_eq, hdelay.value_eq, Beat.value_neg]
    ring
  have hlateRest := Beat.isExact_of_value_eq hlate.isFinite hbeat.2.1 hrest
  -- none of which is the zero below zero
  have hnot : ¬Beat.IsMinusZero (p.due (.script w)) := Beat.not_isMinusZero_add (.inr htime)
  have hnotLate : ¬Beat.IsMinusZero (w.start + (p.script.start + p.script.internal)) :=
    Beat.not_isMinusZero_add (.inr (Beat.not_isMinusZero_add (.inr htime)))
  have hstartEq : p.due (.script w) + w.runahead =
      w.start + (p.script.start + p.script.internal) :=
    Beat.eq_of_value_eq hahead.isFinite hlate.isFinite (Beat.not_isMinusZero_add (.inl hnot))
      hnotLate (hsame.trans hlate.value_eq.symm)
  have hrestEq : p.due (.script w) =
      w.start + (p.script.start + p.script.internal) - w.runahead := by
    rw [Beat.sub_eq_add_neg]
    exact Beat.eq_of_value_eq hdueFinite hlateRest.isFinite hnot
      (Beat.not_isMinusZero_add (.inl hnotLate)) (hrest.trans hlateRest.value_eq.symm)
  rw [moveTo_of_begun_eq_false hbegun, hstartEq, hrestEq, standalone]
  obtain ⟨label, start, runahead, internal, restUntil, queue, begun, stopped, rolls, limit⟩ := w
  obtain rfl : begun = false := hbegun
  obtain rfl : stopped = false := hstopped
  obtain rfl : internal = 0 := hinternal
  rfl

end Script

end Downbeat
