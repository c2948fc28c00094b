import Downbeat.Event
import Downbeat.Proofs.Beat.Halfway
import Downbeat.Proofs.Script.Join
import Downbeat.Proofs.Script.Position

/-!
# Cues at the position of a script

A script that brings on nothing but cues at beat zero (`Event.IsImmediate`) hands each of them over
at its position, and so in order (`Cue.InOrder`), since no rest takes the position back. Drains that
fail and scripts that stop make no difference to this (`Script.exists_inOrder_of_tick`).
-/

set_option linter.unusedSectionVars false

namespace Downbeat

variable {κ φ : Type}

/-- The event is a cue at beat zero. -/
def Event.IsImmediate (e : Event κ φ) : Prop := ∃ c, e = .cue c ∧ (c.beat == 0) = true

/-! ## Cues in order -/

/-- The cues are in order, and none of them is before `a` or after `b`. -/
structure Cue.InOrder (a b : Beat) (cues : List Cue) : Prop where
  le : a ≤ b
  sorted : (cues.map (·.beat)).Pairwise (· ≤ ·)
  bounds : ∀ c ∈ cues, a ≤ c.beat ∧ c.beat ≤ b

namespace Cue.InOrder

variable {a b c : Beat} {cues cues' : List Cue}

theorem nil (h : a ≤ b) : InOrder a b [] := ⟨h, .nil, nofun⟩

theorem singleton {x : Cue} (h : a ≤ x.beat) (h' : x.beat ≤ b) : InOrder a b [x] :=
  ⟨Beat.le_trans h h', List.pairwise_singleton _ _, List.forall_mem_singleton.2 ⟨h, h'⟩⟩

theorem append (h : InOrder a b cues) (h' : InOrder b c cues') : InOrder a c (cues ++ cues') := by
  refine ⟨Beat.le_trans h.le h'.le, ?_, List.forall_mem_append.2 ⟨?_, ?_⟩⟩
  · rw [List.map_append, List.pairwise_append]
    refine ⟨h.sorted, h'.sorted, fun x hx y hy => ?_⟩
    obtain ⟨cue, hcue, rfl⟩ := List.mem_map.1 hx
    obtain ⟨cue', hcue', rfl⟩ := List.mem_map.1 hy
    exact Beat.le_trans (h.bounds cue hcue).2 (h'.bounds cue' hcue').1
  · exact fun x hx => ⟨(h.bounds x hx).1, Beat.le_trans (h.bounds x hx).2 h'.le⟩
  · exact fun x hx => ⟨Beat.le_trans h.le (h'.bounds x hx).1, (h'.bounds x hx).2⟩

end Cue.InOrder

namespace Script

/-- What is at beat zero is placed at the position of the script. -/
theorem due_of_zero {ε : Type} {s : Script ε φ} (hs : s.IsSound) {b : Beat}
    (hb : (b == 0) = true) : s.position ≤ b + s.start + s.internal ∧
      b + s.start + s.internal ≤ s.position := by
  obtain ⟨hnan, -, hplace⟩ := Beat.beq_iff.1 hb
  obtain ⟨hfin, hvalue⟩ := Beat.isFinite_of_place_eq hnan (hplace.trans Beat.place_zero)
  obtain ⟨hfin', hvalue'⟩ := Beat.value_add_of_eq hfin hs.start (by rw [hvalue, zero_add])
    (Beat.isDouble_value s.start) (Beat.abs_value_lt s.start)
  have hinternal := (Beat.isUpward_of_zero_le hs.internal).isNaN
  constructor
  · exact Beat.add_le_add_of_isFinite hs.start hfin' hinternal
      ((Beat.le_iff_value hs.start hfin').2 hvalue'.ge)
  · exact Beat.add_le_add_of_isFinite hfin' hs.start hinternal
      ((Beat.le_iff_value hfin' hs.start).2 hvalue'.le)

variable [Placed κ] [Subroutine φ (Event κ φ)] [Described φ]

/-! ## What a script hands over -/

section

variable {A : Context → Context → Prop} {P : φ → Prop}

theorem Pass.within_after {ε : Type} [Placed ε] [Subroutine φ ε] {Q : ε → Prop}
    (hP : Subroutine.Respects A Q P) {p : Pass ε φ} (he : p.entry.Within Q P)
    (hs : p.script.Within Q P) : p.after.Within Q P := by
  rw [after, done]
  cases h : consume p.now p.script p.entry with
  | error f => exact hs
  | ok r => exact hs.of_consume hP he h

theorem Pass.exists_inOrder {p : Pass (Event κ φ) φ} (hs : p.script.IsSound)
    (he : p.entry.Within Event.IsImmediate P) : ∃ cues : List Cue,
      p.effects.events = cues.map .cue ∧
        Cue.InOrder p.script.position p.after.position cues := by
  have hle := position_le_after hs
  cases hentry : p.entry with
  | event e =>
    rw [hentry] at he
    obtain ⟨c, rfl, hc⟩ := he
    obtain ⟨hposition, hdue⟩ := due_of_zero hs hc
    exact ⟨[{ c with beat := p.due (.cue c) }], events_of_event hentry,
      .singleton hposition (Beat.le_trans hdue hle)⟩
  | _ => exact ⟨[], events_eq_nil (by simp [hentry]), .nil hle⟩

/-- Along a chain the cues are handed over in order, from the position of the script before to that
after. -/
theorem Leads.exists_inOrder (hP : Subroutine.Respects A (@Event.IsImmediate κ φ) P)
    {s t : Script (Event κ φ) φ} {ps : List (Pass (Event κ φ) φ)} (h : Leads s ps t)
    (hs : s.IsSound) (hwithin : s.Within Event.IsImmediate P) :
    t.Within Event.IsImmediate P ∧ ∃ cues : List Cue,
      ps.flatMap (·.effects.events) = cues.map .cue ∧
        Cue.InOrder s.position t.position cues := by
  induction h with
  | refl =>
    have hrefl := Beat.le_refl hs.isUpward.isNaN
    exact ⟨hwithin, [], rfl, .nil hrefl⟩
  | putBack =>
    have hrefl := Beat.le_refl hs.isUpward.isNaN
    exact ⟨hwithin, [], rfl, .nil hrefl⟩
  | @pass s left t e now ps _ reach _ ih =>
    obtain ⟨hleft, hposition⟩ := hs.of_reach reach
    obtain ⟨he, hwithin'⟩ := hwithin.of_reach reach
    obtain ⟨cues, hcues, hinOrder⟩ := Pass.exists_inOrder (p := ⟨left, now, e⟩) hleft he
    obtain ⟨ht, more, hmore, hlater⟩ := ih (Pass.isSound_after hleft)
      (Pass.within_after hP (p := ⟨left, now, e⟩) he hwithin')
    refine ⟨ht, cues ++ more, ?_, hposition ▸ hinOrder.append hlater⟩
    rw [List.flatMap_cons, hcues, hmore, List.map_append]

/-- In a tick the cues are handed over in order, also in one that fails. -/
theorem exists_inOrder_of_tick (hP : Subroutine.Respects A (@Event.IsImmediate κ φ) P)
    {fuel : Nat} {now : Beat} {s s' : Script (Event κ φ) φ} {fx : Effects (Event κ φ)}
    (hs : s.IsSound) (hwithin : s.Within Event.IsImmediate P)
    (h : s.tick fuel now = some (s', fx)) :
    s'.IsSound ∧ s'.Within Event.IsImmediate P ∧ fx.firings = [] ∧ ∃ cues : List Cue,
      fx.events = cues.map .cue ∧ Cue.InOrder s.position s'.position cues := by
  obtain ⟨d, hd, rfl, hquiet⟩ := exists_of_tick h
  obtain ⟨hevents, hfirings, -⟩ := Effects.mk.inj hquiet
  obtain ⟨hleads, hdrained, -⟩ := leads_of_drainFrom hd
  obtain ⟨hwithin', cues, hcues, hinOrder⟩ := hleads.exists_inOrder hP hs hwithin
  have hsound := (hleads.isSound hs).1
  have hleft : d.left.IsSound ∧ d.left.Within Event.IsImmediate P ∧
      d.left.position = d.script.position := by
    rw [Drained.left]
    cases d.outcome with
    | ok r => exact ⟨hsound, hwithin', rfl⟩
    | error f => exact ⟨⟨hsound.start, hsound.internal⟩, hwithin', rfl⟩
  refine ⟨hleft.1, hleft.2.1, ?_, cues, ?_, hleft.2.2 ▸ hinOrder⟩
  · exact hfirings.trans (drains_of_drainFrom hd).firings
  · exact hevents.trans (hdrained.trans hcues)

end

end Script

end Downbeat
