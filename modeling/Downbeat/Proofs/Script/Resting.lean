import Downbeat.Proofs.Beat.Slip
import Downbeat.Proofs.Script.Conservation
import Downbeat.Proofs.Script.Position

/-!
# The beats up to which a script rests

A script that comes to a rest does not move the beat on up to which it rests, but sums it anew from
its position and the length of the rest (`Script.wakeAfter`), while its time is moved on by a sum of
its own. By rounding, this beat may be after the position that the script has by then. If it is not,
the script is in step (`Script.IsInStep`), and no further rest takes the beat back
(`Script.IsSound.isInStep_iff`). A script that is out of step is taken back by a rest of no length.

A rest leaves a script in step if the start and the time are rounded no further up than the time and
the length, or if the difference is lost (`Script.Pass.isInStep_after_iff`). So the beats up to which
a script rests are in order if each of its rests but the last does (`Script.Leads.isChain_restPoints`).
-/

set_option linter.unusedSectionVars false

namespace Downbeat.Script

variable {ε φ : Type}

/-! ## In step -/

/-- The beat of the host up to which the script rests if it comes to a rest of the length `d`. -/
def wakeAfter (s : Script ε φ) (d : Beat) : Beat := s.position + d - s.runahead

/-- The script does not rest beyond its position. -/
def IsInStep (s : Script ε φ) : Prop := s.restUntil ≤ s.position - s.runahead

instance (s : Script ε φ) : Decidable s.IsInStep := by unfold IsInStep; infer_instance

section

variable {s : Script ε φ} (h : s.IsSound) (hahead : s.runahead.isFinite = true)
include h hahead

/-- No rest takes a script back that is in step, and one of no length any other script. -/
theorem IsSound.isInStep_iff : s.IsInStep ↔ ∀ d, IsValidRest d → s.restUntil ≤ s.wakeAfter d := by
  constructor
  · intro hstep d hd
    have hle := h.isUpward.le_add (zero_le_of_isValidRest hd)
    exact Beat.le_trans hstep (Beat.sub_le_sub_right hahead hle)
  · intro hall
    exact Beat.le_trans (hall 0 (by decide)) (Beat.sub_le_sub_right hahead h.isUpward.add_zero_le)

/-- A script that has not rested is in step. -/
theorem IsSound.isInStep_of_new (hrest : s.restUntil = s.start - s.runahead) : s.IsInStep := by
  rw [IsInStep, hrest]
  exact Beat.sub_le_sub_right hahead (Beat.IsUpward.le_add (.inl h.start) h.internal)

end

/-! ## One rest -/

variable [Placed ε] [Subroutine φ ε] [Described φ]

namespace Pass

variable {p : Pass ε φ} {d : Beat}

theorem isInStep_after_of_rest?_eq_none (h : p.entry.rest? = none) :
    p.after.IsInStep ↔ p.script.IsInStep := by
  obtain ⟨hstart, hrunahead⟩ := p.make_after
  obtain ⟨hinternal, hrest⟩ := clocks_after_of_rest?_eq_none h
  rw [IsInStep, IsInStep, position, position, hstart, hrunahead, hinternal, hrest]

open Beat in
/-- A rest leaves the script in step if the start and the time are rounded no further up than the
time and the length of the rest, or if the difference is lost. -/
theorem isInStep_after_iff (hs : p.script.IsSound) (hahead : p.script.runahead.isFinite = true)
    (h : p.entry.rest? = some d) (hd : (p.script.internal + d).isFinite = true) :
    p.after.IsInStep ↔
      slip (value p.script.start) (value p.script.internal) ≤
          slip (value p.script.internal) (value d) ∨
        (p.after.restUntil == p.after.position - p.after.runahead) = true := by
  have hzero := zero_le_of_isValidRest (Entry.isValidRest_of_rest? h).2
  rw [after_of_rest? h, IsInStep, beq_iff_le_and_le]
  show p.script.position + d - p.script.runahead ≤
      p.script.start + (p.script.internal + d) - p.script.runahead ↔ _ ∨ _ ∧
    p.script.start + (p.script.internal + d) - p.script.runahead ≤
      p.script.position + d - p.script.runahead
  rcases hs.isUpward with hfin | hinf
  · constructor
    · intro hle
      rcases le_total (slip (value p.script.start) (value p.script.internal))
        (slip (value p.script.internal) (value d)) with hslip | hslip
      · exact .inl hslip
      · exact .inr ⟨hle, Beat.sub_le_sub_right hahead (le_add_add hfin hd hslip)⟩
    · rintro (hslip | ⟨hle, -⟩)
      · exact Beat.sub_le_sub_right hahead (add_add_le hfin hd hslip)
      · exact hle
  · -- beyond the range both are at the upper end
    have hsum : p.script.position + d = 1 / 0 := by
      rw [hinf, (isUpward_of_zero_le hzero).inf_add]
    have hlater : p.script.position ≤ p.script.start + (p.script.internal + d) :=
      Beat.add_le_add_left hs.start ((isUpward_of_zero_le hs.internal).le_add hzero)
    have hend := le_inf (isNaN_add hs.start (isNaN_of_isFinite hd))
    rw [hinf, ← hsum] at hlater
    rw [← hsum] at hend
    have hle := Beat.sub_le_sub_right hahead hlater
    exact iff_of_true hle (.inr ⟨hle, Beat.sub_le_sub_right hahead hend⟩)

end Pass

/-! ## One rest after another -/

/-- The passes that are at rests of valid lengths. -/
def rests (ps : List (Pass ε φ)) : List (Pass ε φ) := ps.filter (·.entry.rest?.isSome)

/-- The beats up to which the script rests : the one before it gets to the entries, and one after
each rest. -/
def restPoints (s : Script ε φ) (ps : List (Pass ε φ)) : List Beat :=
  s.restUntil :: (rests ps).map (·.after.restUntil)

variable {s t : Script ε φ} {p : Pass ε φ} {ps : List (Pass ε φ)}

theorem rests_cons_of_rest? {d : Beat} (h : p.entry.rest? = some d) :
    rests (p :: ps) = p :: rests ps := List.filter_cons_of_pos (by simp [h])

theorem rests_cons_of_rest?_eq_none (h : p.entry.rest? = none) : rests (p :: ps) = rests ps :=
  List.filter_cons_of_neg (by simp [h])

theorem restPoints_cons_of_rest? {d : Beat} (h : p.entry.rest? = some d) :
    s.restPoints (p :: ps) = s.restUntil :: p.after.restPoints ps := by
  rw [restPoints, rests_cons_of_rest? h, List.map_cons, restPoints]

theorem restPoints_cons_of_rest?_eq_none (h : p.entry.rest? = none)
    (hs : p.script.restUntil = s.restUntil) :
    s.restPoints (p :: ps) = p.after.restPoints ps := by
  rw [restPoints, rests_cons_of_rest?_eq_none h, restPoints,
    (Pass.clocks_after_of_rest?_eq_none h).2, hs]

/-- At last, the script rests up to the last of these beats. -/
theorem Leads.getLast?_restPoints (h : Leads s ps t) :
    (s.restPoints ps).getLast? = some t.restUntil := by
  induction h with
  | refl => rfl
  | putBack => rfl
  | @pass s left t e now ps _ reach _ ih =>
    cases hd : e.rest? with
    | none =>
      have hrest := congrArg Prod.snd (clocks_of_reach reach).2.2
      rwa [restPoints_cons_of_rest?_eq_none hd hrest]
    | some d =>
      rw [restPoints_cons_of_rest? hd, List.getLast?_cons, ih]
      rfl

/-- If a script is in step, and after each rest but the last one, the beats up to which it rests are
in order. -/
theorem Leads.isChain_restPoints (h : Leads s ps t) (hs : s.IsSound)
    (hahead : s.runahead.isFinite = true) (hstep : s.IsInStep)
    (hrests : ∀ p ∈ (rests ps).dropLast, p.after.IsInStep) :
    (s.restPoints ps).IsChain (· ≤ ·) := by
  induction h with
  | refl => exact .singleton _
  | putBack => exact .singleton _
  | @pass s left t e now ps _ reach _ ih =>
    obtain ⟨-, hrunahead, hclocks⟩ := clocks_of_reach reach
    obtain ⟨-, hrest⟩ := Prod.mk.inj hclocks
    obtain ⟨hleft, hposition⟩ := hs.of_reach reach
    rw [IsInStep, ← hrest, ← hposition, ← hrunahead] at hstep
    rw [← hrunahead] at hahead
    have hafter := Pass.isSound_after (p := ⟨left, now, e⟩) hleft
    have hahead' := (Pass.mk left now e).make_after.2 ▸ hahead
    cases hd : e.rest? with
    | none =>
      rw [rests_cons_of_rest?_eq_none hd] at hrests
      rw [restPoints_cons_of_rest?_eq_none hd hrest]
      exact ih hafter hahead' ((Pass.isInStep_after_of_rest?_eq_none hd).2 hstep) hrests
    | some d =>
      have hle : s.restUntil ≤ (Pass.mk left now e).after.restUntil := by
        rw [Pass.after_of_rest? hd, ← hrest]
        exact (hleft.isInStep_iff hahead).1 hstep d (Entry.isValidRest_of_rest? hd).2
      rw [rests_cons_of_rest? hd] at hrests
      rw [restPoints_cons_of_rest? hd]
      refine List.isChain_cons_cons.2 ⟨hle, ?_⟩
      cases hlast : rests ps with
      | nil => exact .singleton _
      | cons q qs =>
        rw [hlast, List.dropLast_cons_of_ne_nil (List.cons_ne_nil q qs)] at hrests
        obtain ⟨hp, hqs⟩ := List.forall_mem_cons.1 hrests
        have hchain := ih hafter hahead' hp (by rwa [hlast])
        rwa [restPoints, hlast] at hchain

/-- With one more rest of whatever length, the beats are in order if they are in order without it and
the script is in step. -/
theorem Leads.pairwise_append_iff (h : Leads s ps t) (ht : t.IsSound)
    (hahead : t.runahead.isFinite = true) :
    (∀ d, IsValidRest d → (s.restPoints ps ++ [t.wakeAfter d]).Pairwise (· ≤ ·)) ↔
      (s.restPoints ps).Pairwise (· ≤ ·) ∧ t.IsInStep := by
  simp only [← List.isChain_iff_pairwise, List.isChain_append, h.getLast?_restPoints,
    Option.mem_some_iff, List.head?_cons, forall_eq']
  rw [ht.isInStep_iff hahead]
  constructor
  · exact fun hall => ⟨(hall 0 (by decide)).1, fun d hd => (hall d hd).2.2⟩
  · exact fun ⟨hchain, hall⟩ d hd => ⟨hchain, .singleton _, hall d hd⟩

open Beat in
/-- What is known of the beats up to which the script `s` rests while it gets to the entries, after
which it is `t`. -/
structure RestsInOrder (s : Script ε φ) (ps : List (Pass ε φ)) (t : Script ε φ) : Prop where
  leads : Leads s ps t
  last : (s.restPoints ps).getLast? = some t.restUntil
  /-- They are in order if each rest but the last one leaves the script in step. -/
  ordered : (∀ p ∈ (rests ps).dropLast, p.after.IsInStep) →
    (s.restPoints ps).Pairwise (· ≤ ·)
  /-- No further rest takes the script back exactly if it is in step. -/
  further : (∀ d, IsValidRest d → (s.restPoints ps ++ [t.wakeAfter d]).Pairwise (· ≤ ·)) ↔
    (s.restPoints ps).Pairwise (· ≤ ·) ∧ t.IsInStep
  /-- What leaves the script in step is told by how the sums are rounded. -/
  inStep : ∀ p ∈ ps, ∀ d, p.entry.rest? = some d → (p.script.internal + d).isFinite = true →
    (p.after.IsInStep ↔ slip (value p.script.start) (value p.script.internal) ≤
        slip (value p.script.internal) (value d) ∨
      (p.after.restUntil == p.after.position - p.after.runahead) = true)

theorem Leads.restsInOrder (h : Leads s ps t) (hs : s.IsSound)
    (hahead : s.runahead.isFinite = true) (hstep : s.IsInStep) : RestsInOrder s ps t := by
  obtain ⟨ht, -, hps⟩ := h.isSound hs
  obtain ⟨hrunahead, hsame⟩ := h.runahead_eq
  exact {
    leads := h
    last := h.getLast?_restPoints
    ordered := fun hrests =>
      List.isChain_iff_pairwise.1 (h.isChain_restPoints hs hahead hstep hrests)
    further := h.pairwise_append_iff ht (hrunahead ▸ hahead)
    inStep := fun p hp _ hd hfin =>
      Pass.isInStep_after_iff (hps p hp) (hsame p hp ▸ hahead) hd hfin }

/-- However a new script is drained, and at any entry that a further drain gets to, be it ever done
or not, the beats up to which it rests are in order if each rest leaves it in step; and if one does
not, the beat goes back if a rest of no length follows. -/
theorem restsInOrder_of_drainAll (hstart : s.start.isFinite = true)
    (hahead : s.runahead.isFinite = true) (hinternal : s.internal = 0)
    (hrest : s.restUntil = s.start - s.runahead) {fuel : Nat} {nows : List Beat} {r : Series ε φ}
    (h : s.drainAll fuel nows = some r) : RestsInOrder s r.passes r.script ∧
      ∀ now n, ∃ t, RestsInOrder s (r.passes ++ r.script.passes now n 0) t := by
  have hs : s.IsSound := ⟨hstart, by rw [hinternal]; decide⟩
  have hstep := hs.isInStep_of_new hahead hrest
  obtain ⟨hleads, -, -⟩ := leads_of_drainAll h
  refine ⟨hleads.restsInOrder hs hahead hstep, fun now n => ?_⟩
  obtain ⟨t, ht⟩ := exists_leads_passes now n 0 r.script
  exact ⟨t, (hleads.trans ht).restsInOrder hs hahead hstep⟩

/-- A script that rests for a tenth of a beat, twice. -/
def dozing : Script Playback.ShowEvent Phase where
  start := 1
  runahead := 0
  queue := .ofList [.rest 0.1, .rest (-1), .rest 0.1, .rest 0]

/-- The first rest leaves the script in step, and so the second one does not take it back. -/
theorem restsInOrder_of_drainAll_dozing : ∃ r, dozing.drainAll 20 [1, 1.1, 1.1] = some r ∧
    (dozing.restPoints r.passes).Pairwise (· ≤ ·) ∧ RestsInOrder dozing r.passes r.script := by
  have hrun : (dozing.drainAll 20 [1, 1.1, 1.1]).map (fun r =>
      decide (∀ p ∈ (rests r.passes).dropLast, p.after.IsInStep)) = some true := by
    decide +kernel
  obtain ⟨r, hr, hrests⟩ := Option.map_eq_some_iff.1 hrun
  obtain ⟨hinOrder, -⟩ := restsInOrder_of_drainAll (by decide) (by decide) rfl rfl hr
  exact ⟨r, hr, hinOrder.ordered (of_decide_eq_true hrests), hinOrder⟩

/-- The second rest leaves the script out of step, and the rest of no length takes it back. -/
theorem dozing_goes_back : dozing.start.isFinite = true ∧ dozing.runahead.isFinite = true ∧
    0 ≤ dozing.runahead ∧ ∃ r, dozing.drainAll 20 [1, 1.1, 1.1, 1.3] = some r ∧
    dozing.restPoints r.passes = [1, 1.1, 1.2000000000000002, 1.2] ∧
    ¬(dozing.restPoints r.passes).Pairwise (· ≤ ·) := by
  have hrun : (dozing.drainAll 20 [1, 1.1, 1.1, 1.3]).map (fun r => dozing.restPoints r.passes) =
      some [1, 1.1, 1.2000000000000002, 1.2] := by decide +kernel
  obtain ⟨r, hr, hpoints⟩ := Option.map_eq_some_iff.1 hrun
  refine ⟨by decide, by decide, by decide, r, hr, hpoints, ?_⟩
  rw [hpoints]
  decide +kernel

end Downbeat.Script
