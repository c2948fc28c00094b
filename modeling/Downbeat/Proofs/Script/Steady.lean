import Downbeat.Proofs.Beat.Exact
import Downbeat.Proofs.Script.Passes

/-!
# Where a script rests

A script begins at its start less what it works ahead, and a rest keeps it from the host until its
start plus its time less what it works ahead. While no sum is rounded (`Script.Pass.IsExact`), both
are one law, which each entry keeps (`Script.Steady`, `Script.Pass.steady_after`). So a script that
works ahead by no negative length hands over what is written for no negative beat only for the time
that it has not waited for (`Script.Steady.restUntil_le_due`), and a drain that leaves nothing to do
at a beat leaves nothing that is due by then to the drains to come
(`Script.Leads.lt_restUntil_of_idle`).
-/

set_option linter.unusedSectionVars false

namespace Downbeat.Script

variable {ε φ : Type} [Placed ε] [Subroutine φ ε] [Described φ]

/-- None of the sums is rounded that place the entry. -/
def Pass.IsExact (p : Pass ε φ) : Prop :=
  match p.entry with
  | .event e =>
    Beat.IsExact (Placed.beat e) p.script.start ∧
      Beat.IsExact (Placed.beat e + p.script.start) p.script.internal
  | .rest d =>
    Beat.IsExact p.script.internal d ∧ Beat.IsExact p.script.start p.script.internal ∧
      Beat.IsExact (p.script.start + p.script.internal) d ∧
      Beat.IsExact (p.script.start + p.script.internal + d) (-p.script.runahead)
  | _ => True

instance (p : Pass ε φ) : Decidable p.IsExact := by
  unfold Pass.IsExact
  split <;> infer_instance

/-- The script rests at its start plus its time less what it works ahead. -/
structure Steady (s : Script ε φ) : Prop where
  /-- The beat of the script is not rounded. -/
  beat : Beat.IsExact s.start (-s.runahead)
  internal : s.internal.isFinite = true
  internal_nonneg : 0 ≤ Beat.value s.internal
  restUntil : s.restUntil.isFinite = true
  value_restUntil : Beat.value s.restUntil =
    Beat.value s.start + Beat.value s.internal - Beat.value s.runahead

/-- A script that has not rested is steady. -/
theorem steady_of_new {s : Script ε φ} (hinternal : s.internal = 0)
    (hrest : s.restUntil = s.start - s.runahead) (hbeat : Beat.IsExact s.start (-s.runahead)) :
    s.Steady where
  beat := hbeat
  internal := by
    rw [hinternal]
    exact Beat.isFinite_zero
  internal_nonneg := by rw [hinternal, Beat.value_zero]
  restUntil := by
    rw [hrest, Beat.sub_eq_add_neg]
    exact hbeat.isFinite
  value_restUntil := by
    rw [hrest, hinternal, Beat.sub_eq_add_neg, hbeat.value_eq, Beat.value_neg, Beat.value_zero,
      add_zero, sub_eq_add_neg]

namespace Steady

variable {s left : Script ε φ} {e : Entry ε φ}

/-- Only the clockwork of the script counts. -/
theorem congr {t : Script ε φ} (h : s.Steady) (hstart : t.start = s.start)
    (hrunahead : t.runahead = s.runahead) (hinternal : t.internal = s.internal)
    (hrest : t.restUntil = s.restUntil) : t.Steady := by
  obtain ⟨hbeat, hfinite, hnonneg, hrestFinite, hvalue⟩ := h
  rw [← hstart, ← hrunahead] at hbeat
  rw [← hinternal] at hfinite hnonneg
  rw [← hrest] at hrestFinite
  rw [← hstart, ← hrunahead, ← hinternal, ← hrest] at hvalue
  exact ⟨hbeat, hfinite, hnonneg, hrestFinite, hvalue⟩

theorem runahead (h : s.Steady) : s.runahead.isFinite = true := by
  rw [← Beat.isFinite_neg]
  exact h.beat.2.1

theorem of_reach (h : s.Steady) (hreach : s.reach = some (e, left)) : left.Steady := by
  obtain ⟨rest, -, rfl⟩ := reach_eq_some_iff.1 hreach
  exact h.congr rfl rfl rfl rfl

/-- A script does not rest until a beat before its own. -/
theorem beat_le (h : s.Steady) : Placed.beat s ≤ s.restUntil := by
  have hbeat : Placed.beat s = s.start + -s.runahead := Beat.sub_eq_add_neg _ _
  rw [hbeat, Beat.le_iff_value h.beat.isFinite h.restUntil, h.beat.value_eq, Beat.value_neg,
    h.value_restUntil]
  linarith [h.internal_nonneg]

end Steady

namespace Pass

variable {p : Pass ε φ}

/-- An entry takes a steady script to a steady one, which does not rest until an earlier beat. -/
theorem steady_after (hp : p.script.Steady) (hexact : p.IsExact) :
    p.after.Steady ∧ p.after.runahead = p.script.runahead ∧
      p.script.restUntil ≤ p.after.restUntil := by
  have hsame : p.script.restUntil ≤ p.script.restUntil :=
    Beat.le_refl (Beat.isNaN_of_isFinite hp.restUntil)
  cases he : p.entry with
  | rest d =>
    by_cases hd : IsValidRest d
    · simp only [IsExact, he] at hexact
      obtain ⟨htime, hstart, hlength, hahead⟩ := hexact
      obtain ⟨hnan, hneg⟩ := not_or.1 hd
      have hlong : 0 ≤ Beat.value d := Beat.value_nonneg (eq_false_of_ne_true hnan) hneg
      have hafter : p.after = { p.script with
          restUntil := p.script.start + p.script.internal + d + -p.script.runahead
          internal := p.script.internal + d } := by
        simp [after, done, he, consume, hd, Beat.sub_eq_add_neg]
      have hrest : Beat.value (p.script.start + p.script.internal + d + -p.script.runahead) =
          Beat.value p.script.start + (Beat.value p.script.internal + Beat.value d) -
            Beat.value p.script.runahead := by
        rw [hahead.value_eq, hlength.value_eq, hstart.value_eq, Beat.value_neg]
        ring
      rw [hafter]
      refine ⟨⟨hp.beat, htime.isFinite, ?_, hahead.isFinite, ?_⟩, rfl, ?_⟩
      · rw [htime.value_eq]
        exact add_nonneg hp.internal_nonneg hlong
      · rw [htime.value_eq]
        exact hrest
      · rw [Beat.le_iff_value hp.restUntil hahead.isFinite, hrest, hp.value_restUntil]
        linarith
    · have hafter : p.after = p.script := by simp [after, done, he, consume, hd]
      rw [hafter]
      exact ⟨hp, rfl, hsame⟩
  | expand f =>
    have hafter : p.after = { p.script with queue := p.after.queue, rolls := p.after.rolls } := by
      simp [after, done, he, consume, enqueue]
    rw [hafter]
    exact ⟨hp.congr rfl rfl rfl rfl, rfl, hsame⟩
  | stop =>
    have hafter : p.after = { p.script with stopped := true } := by
      simp [after, done, he, consume, stop]
    rw [hafter]
    exact ⟨hp.congr rfl rfl rfl rfl, rfl, hsame⟩
  | _ =>
    have hafter : p.after = p.script := by simp [after, done, he, consume]
    rw [hafter]
    exact ⟨hp, rfl, hsame⟩

/-- An event is due at the sum of its own beat, the start and the time of its script. -/
theorem value_due {e : ε} (hexact : p.IsExact) (he : p.entry = .event e) :
    (p.due e).isFinite = true ∧ Beat.value (p.due e) =
      Beat.value (Placed.beat e) + Beat.value p.script.start + Beat.value p.script.internal := by
  simp only [IsExact, he] at hexact
  obtain ⟨hstart, htime⟩ := hexact
  refine ⟨htime.isFinite, ?_⟩
  rw [due, htime.value_eq, hstart.value_eq]

/-- What is written for no negative beat is not due before the script may hand it over. -/
theorem restUntil_le_due {e : ε} (hp : p.script.Steady) (hexact : p.IsExact)
    (he : p.entry = .event e) (hbeat : 0 ≤ Placed.beat e) (hahead : 0 ≤ p.script.runahead) :
    p.script.restUntil ≤ p.due e := by
  obtain ⟨hfinite, hvalue⟩ := value_due hexact he
  have hown : (Placed.beat e).isFinite = true := by
    simp only [IsExact, he] at hexact
    exact hexact.1.1
  rw [Beat.zero_le_iff_value hown] at hbeat
  rw [Beat.zero_le_iff_value hp.runahead] at hahead
  rw [Beat.le_iff_value hp.restUntil hfinite, hvalue, hp.value_restUntil]
  linarith

end Pass

/-- A steady script stays steady, and never rests until an earlier beat. -/
theorem Leads.steady {s t : Script ε φ} {ps : List (Pass ε φ)} (h : Leads s ps t)
    (hs : s.Steady) (hexact : ∀ p ∈ ps, p.IsExact) :
    (t.Steady ∧ t.runahead = s.runahead) ∧ ∀ p ∈ ps,
      p.script.Steady ∧ p.script.runahead = s.runahead ∧ s.restUntil ≤ p.script.restUntil := by
  induction h with
  | refl => exact ⟨⟨hs, rfl⟩, nofun⟩
  | putBack => exact ⟨⟨hs.congr rfl rfl rfl rfl, rfl⟩, nofun⟩
  | @pass s left t e now ps _ reach _ ih =>
    obtain ⟨hp, hps⟩ := List.forall_mem_cons.1 hexact
    have hleft := hs.of_reach reach
    obtain ⟨rest, -, rfl⟩ := reach_eq_some_iff.1 reach
    obtain ⟨hafter, hahead, hle⟩ := Pass.steady_after hleft hp
    obtain ⟨⟨ht, htahead⟩, hlater⟩ := ih hafter hps
    refine ⟨⟨ht, htahead.trans hahead⟩, List.forall_mem_cons.2 ⟨⟨hleft, rfl, ?_⟩, ?_⟩⟩
    · exact Beat.le_refl (Beat.isNaN_of_isFinite hs.restUntil)
    · intro p hp
      obtain ⟨hsteady, hahead', hle'⟩ := hlater p hp
      exact ⟨hsteady, hahead'.trans hahead, Beat.le_trans hle hle'⟩

/-- A script that has nothing to do at a beat gets to nothing until it rests no more. -/
theorem Leads.lt_restUntil_of_idle {s t : Script ε φ} {ps : List (Pass ε φ)} (h : Leads s ps t)
    (hs : s.Steady) (hexact : ∀ p ∈ ps, p.IsExact) {now : Beat} (hnow : now.isNaN = false)
    (hidle : s.isReady now = false ∨ s.reach = none) : ∀ p ∈ ps, now < p.script.restUntil := by
  cases h with
  | refl => exact nofun
  | putBack => exact nofun
  | @pass _ left _ e later ps going reach rest =>
    have hready : s.isReady now = false := hidle.resolve_right (by simp [reach])
    have hlt : now < s.restUntil := by
      rw [← Beat.not_le_iff (Beat.isNaN_of_isFinite hs.restUntil) hnow]
      simpa [isReady, going] using hready
    intro p hp
    obtain ⟨-, -, hle⟩ := (Leads.steady (.pass going reach rest) hs hexact).2 p hp
    exact Beat.lt_of_lt_of_le hlt hle

end Downbeat.Script
