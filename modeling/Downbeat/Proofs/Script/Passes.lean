import Mathlib.Data.List.Basic
import Downbeat.Proofs.Script.Turn

/-!
# What a script gets to

A drain is told by the entries that it takes off the queue, each with the script as it was
when it got there (`Script.Pass`, `Script.passes`). Several drains one after another
(`Script.drainAll`) take up where the one before left off, whether it ended well or not, so
the passes of all of them form one chain from the script before to the script after
(`Script.Leads`). What the drains did is what their passes did (`Script.leads_of_drainAll`).

Along a chain the queue only loses its head and grows at its end (`Leads.queue`), the make of
the script stays, and its time is the sum of the rests so far (`Leads.time`).
-/

set_option linter.unusedSectionVars false

namespace Downbeat

variable {ε φ : Type}

/-- The length of a rest that moves time on. -/
def Entry.rest? : Entry ε φ → Option Beat
  | .rest d => if Script.IsValidRest d then some d else none
  | _ => none

/-- The time of a script that was at `time` and has got to the entries since. -/
def elapsed (time : Beat) (es : List (Entry ε φ)) : Beat :=
  (es.filterMap Entry.rest?).foldl (· + ·) time

@[simp] theorem elapsed_nil (time : Beat) : elapsed time ([] : List (Entry ε φ)) = time := rfl

theorem elapsed_append (time : Beat) (es fs : List (Entry ε φ)) :
    elapsed time (es ++ fs) = elapsed (elapsed time es) fs := by
  simp [elapsed, List.filterMap_append, List.foldl_append]

theorem elapsed_cons (time : Beat) (e : Entry ε φ) (es : List (Entry ε φ)) :
    elapsed time (e :: es) = elapsed (elapsed time [e]) es :=
  elapsed_append time [e] es

theorem elapsed_singleton (time : Beat) (e : Entry ε φ) :
    elapsed time [e] = e.rest?.elim time (time + ·) := by
  cases h : e.rest? <;> simp [elapsed, h]

/-- Entries without a valid rest leave the time as it is. -/
theorem elapsed_of_no_rest {time : Beat} {es : List (Entry ε φ)}
    (h : ∀ x ∈ es, x.rest? = none) : elapsed time es = time := by
  rw [elapsed, List.filterMap_eq_nil_iff.2 h, List.foldl_nil]

namespace Script

variable [Placed ε] [Subroutine φ ε] [Described φ]

/-! ## Passes -/

/-- A script gets to an entry. -/
structure Pass (ε φ : Type) where
  /-- The script, with the entry no longer in its queue. -/
  script : Script ε φ
  /-- The beat of the host. -/
  now : Beat
  entry : Entry ε φ

namespace Pass

/-- The script after the entry, and what the entry did. A rest of no valid length does
nothing. -/
def done (p : Pass ε φ) : Script ε φ × Effects ε :=
  match consume p.now p.script p.entry with
  | .ok r => r
  | .error _ => (p.script, {})

/-- The script after the entry. -/
def after (p : Pass ε φ) : Script ε φ := p.done.1

/-- What the entry did. -/
def effects (p : Pass ε φ) : Effects ε := p.done.2

theorem done_of_consume {p : Pass ε φ} {r : Script ε φ × Effects ε}
    (h : consume p.now p.script p.entry = .ok r) : p.done = r := by
  rw [done, h]

/-- Where an event is due : at its own beat plus the start and the time of the script. -/
def due (p : Pass ε φ) (e : ε) : Beat := Placed.beat e + p.script.start + p.script.internal

/-- An event is handed over where it is due. -/
theorem events_of_event {p : Pass ε φ} {e : ε} (h : p.entry = .event e) :
    p.effects.events = [Placed.moveTo (p.due e) e] := by
  simp [effects, done, h, consume, due]

theorem events_eq_nil {p : Pass ε φ} (h : ∀ e, p.entry ≠ .event e) : p.effects.events = [] := by
  cases he : p.entry with
  | event e => exact absurd he (h e)
  | rest d => by_cases hd : IsValidRest d <;> simp [effects, done, he, consume, hd]
  | _ => simp [effects, done, he, consume]

/-- A marker is reported at the start plus the time of the script. -/
theorem notices_of_marker {p : Pass ε φ} {m : Marker} (h : p.entry = .marker m) :
    p.effects.notices = [.marked p.script.label (p.script.start + p.script.internal) m] := by
  simp [effects, done, h, consume]

/-- The entries that the pass adds to the queue. -/
def added (p : Pass ε φ) : List (Entry ε φ) :=
  match p.entry with
  | .expand f => (Subroutine.expand f (p.script.context p.now) p.script.rolls).1
  | _ => []

/-- A pass moves the time of the script by the entry and adds to its queue. -/
theorem after_eq (p : Pass ε φ) :
    p.after.start = p.script.start ∧ p.after.label = p.script.label ∧
      p.after.internal = elapsed p.script.internal [p.entry] ∧
      p.after.queue.toList = p.script.queue.toList ++ p.added := by
  cases h : p.entry with
  | rest d =>
    by_cases hd : IsValidRest d <;>
      simp [after, done, consume, added, elapsed_singleton, Entry.rest?, h, hd]
  | expand f => simp [after, done, consume, added, elapsed_singleton, Entry.rest?, h, enqueue]
  | _ => simp [after, done, consume, added, elapsed_singleton, Entry.rest?, h, stop]

end Pass

/-- The passes of a drain that has worked off `spent` entries. -/
def passes (now : Beat) : (fuel spent : Nat) → Script ε φ → List (Pass ε φ)
  | 0, _, _ => []
  | fuel + 1, spent, s =>
    match s.reach, s.turn now spent with
    | some (e, left), .worked _ t _ => ⟨left, now, e⟩ :: passes now fuel (spent + 1) t
    | some (e, left), .broken _ (.invalidRest _) => [⟨left, now, e⟩]
    | _, _ => []

/-- The script after some passes. A script that puts an entry back has begun. -/
inductive Leads : Script ε φ → List (Pass ε φ) → Script ε φ → Prop
  | refl (s : Script ε φ) : Leads s [] s
  | putBack (s : Script ε φ) : Leads s [] { s with begun := true }
  | pass {s left t : Script ε φ} {e : Entry ε φ} {now : Beat} {ps : List (Pass ε φ)}
      (going : s.stopped = false) (reach : s.reach = some (e, left))
      (rest : Leads (Pass.mk left now e).after ps t) : Leads s (⟨left, now, e⟩ :: ps) t

theorem stopped_of_isReady {s : Script ε φ} {now : Beat} (h : s.isReady now = true) :
    s.stopped = false := by
  simp only [isReady, Bool.and_eq_true, Bool.not_eq_true'] at h
  exact h.1

/-- The passes of a drain lead to the script after it, and do what it did. -/
theorem leads_of_drainFrom {now : Beat} {fuel spent : Nat} {s : Script ε φ} {d : Drained ε φ}
    (h : drainFrom now fuel spent s = some d) :
    Leads s (passes now fuel spent s) d.script ∧
      d.effects.events = (passes now fuel spent s).flatMap (·.effects.events) ∧
      d.effects.notices = (passes now fuel spent s).flatMap (·.effects.notices) := by
  induction fuel generalizing spent s d with
  | zero => cases h
  | succ fuel ih =>
    have hspec := turn_spec now spent s
    rw [drainFrom] at h
    rw [passes]
    generalize s.turn now spent = turn at h hspec ⊢
    cases hspec with
    | idle _ =>
      cases h
      cases s.reach <;> exact ⟨.refl s, rfl, rfl⟩
    | putBack ready full reach =>
      cases h
      rw [reach]
      exact ⟨.putBack s, rfl, rfl⟩
    | @dropped d left ready room reach invalid =>
      cases h
      have hdone : (Pass.mk left now (.rest d : Entry ε φ)).done = (left, {}) := by
        simp [Pass.done, consume, invalid]
      rw [reach]
      refine ⟨.pass (stopped_of_isReady ready) reach ?_, ?_, ?_⟩
      · rw [Pass.after, hdone]
        exact .refl left
      · simp [Pass.effects, hdone]
      · simp [Pass.effects, hdone]
    | @worked e left t fx ready room reach done =>
      obtain ⟨d, hd, rfl⟩ := Option.map_eq_some_iff.1 h
      obtain ⟨hleads, hevents, hnotices⟩ := ih hd
      have hdone : (Pass.mk left now e).done = (t, fx) := Pass.done_of_consume done
      rw [reach]
      refine ⟨.pass (stopped_of_isReady ready) reach ?_, ?_, ?_⟩
      · rw [Pass.after, hdone]
        exact hleads
      · simp [Drained.after, Pass.effects, hdone, hevents]
      · simp [Drained.after, Pass.effects, hdone, hnotices]

namespace Leads

theorem of_putBack {s u : Script ε φ} {ps : List (Pass ε φ)}
    (h : Leads { s with begun := true } ps u) : Leads s ps u := by
  generalize ht : ({ s with begun := true } : Script ε φ) = t at h
  cases h with
  | refl => exact ht ▸ .putBack s
  | putBack => exact ht ▸ .putBack s
  | pass going reach rest =>
    subst ht
    exact .pass going reach rest

theorem trans {s t u : Script ε φ} {ps qs : List (Pass ε φ)} (h : Leads s ps t)
    (h' : Leads t qs u) : Leads s (ps ++ qs) u := by
  induction h with
  | refl => exact h'
  | putBack => exact h'.of_putBack
  | pass going reach _ ih => exact .pass going reach (ih h')

/-- A chain is cut at one of its passes. -/
theorem cut {s t : Script ε φ} {before later : List (Pass ε φ)} {p : Pass ε φ}
    (h : Leads s (before ++ p :: later) t) : ∃ u, Leads s before u ∧ u.stopped = false ∧
      u.reach = some (p.entry, p.script) ∧ Leads p.after later t := by
  induction before generalizing s with
  | nil =>
    cases h with
    | pass going reach rest => exact ⟨s, .refl s, going, reach, rest⟩
  | cons q before ih =>
    cases h with
    | pass going reach rest =>
      obtain ⟨u, hu, hstop, hreach, hrest⟩ := ih rest
      exact ⟨u, .pass going reach hu, hstop, hreach, hrest⟩

/-- Along a chain the make of the script stays, and its time is the sum of the rests. -/
theorem time {s t : Script ε φ} {ps : List (Pass ε φ)} (h : Leads s ps t) :
    t.start = s.start ∧ t.label = s.label ∧
      t.internal = elapsed s.internal (ps.map Pass.entry) := by
  induction h with
  | refl => exact ⟨rfl, rfl, rfl⟩
  | putBack => exact ⟨rfl, rfl, rfl⟩
  | @pass s left t e now ps _ reach _ ih =>
    obtain ⟨rest, -, rfl⟩ := reach_eq_some_iff.1 reach
    obtain ⟨hstart, hlabel, hinternal, -⟩ := (Pass.mk _ now e).after_eq
    refine ⟨ih.1.trans hstart, ih.2.1.trans hlabel, ?_⟩
    rw [ih.2.2, hinternal]
    exact (elapsed_cons _ _ _).symm

/-- The script at a pass of a chain. -/
theorem time_at {s t : Script ε φ} {before later : List (Pass ε φ)} {p : Pass ε φ}
    (h : Leads s (before ++ p :: later) t) :
    p.script.start = s.start ∧ p.script.label = s.label ∧
      p.script.internal = elapsed s.internal (before.map Pass.entry) := by
  obtain ⟨u, hu, -, hreach, -⟩ := h.cut
  obtain ⟨rest, -, hp⟩ := reach_eq_some_iff.1 hreach
  rw [hp]
  exact hu.time

/-- First come, first served. -/
theorem queue {s t : Script ε φ} {ps : List (Pass ε φ)} (h : Leads s ps t) :
    s.queue.toList ++ ps.flatMap Pass.added = ps.map Pass.entry ++ t.queue.toList := by
  induction h with
  | refl => simp
  | putBack => simp
  | @pass s left t e now ps _ reach _ ih =>
    obtain ⟨-, -, -, hqueue⟩ := (Pass.mk left now e).after_eq
    rw [hqueue] at ih
    rw [toList_of_reach reach, List.flatMap_cons, List.map_cons, List.cons_append,
      List.cons_append, ← ih, List.append_assoc]

end Leads

/-! ## Several drains -/

/-- What several drains did, one after another. -/
structure Series (ε φ : Type) where
  /-- The script after them. -/
  script : Script ε φ
  passes : List (Pass ε φ) := []
  effects : Effects ε := {}
  /-- The report or the fault of each. -/
  outcomes : List (Except Fault Report) := []

/-- Drains a script at one beat after another, however each drain ends. -/
def drainAll (fuel : Nat) : List Beat → Script ε φ → Option (Series ε φ)
  | [], s => some { script := s }
  | now :: nows, s => do
    let d ← s.drain fuel now
    let r ← drainAll fuel nows d.script
    return ⟨r.script, s.passes now fuel 0 ++ r.passes, d.effects ++ r.effects,
      d.outcome :: r.outcomes⟩

theorem drainAll_cons {fuel : Nat} {now : Beat} {nows : List Beat} {s : Script ε φ}
    {r : Series ε φ} (h : s.drainAll fuel (now :: nows) = some r) :
    ∃ d r', drainFrom now fuel 0 s = some d ∧ d.script.drainAll fuel nows = some r' ∧
      r = ⟨r'.script, s.passes now fuel 0 ++ r'.passes,
        d.effects ++ { notices := d.script.restNotice now d.outcome } ++ r'.effects,
        d.outcome :: r'.outcomes⟩ := by
  simp only [drainAll, drain, bind, Option.bind_eq_some_iff, Option.map_eq_some_iff,
    Option.pure_def, Option.some.injEq] at h
  obtain ⟨_, ⟨d, hd, rfl⟩, r', hr', rfl⟩ := h
  exact ⟨d, r', hd, hr', rfl⟩

/-- The passes of several drains form one chain, and do what the drains did. The drains also
report that the script rests. -/
theorem leads_of_drainAll {fuel : Nat} {nows : List Beat} {s : Script ε φ} {r : Series ε φ}
    (h : s.drainAll fuel nows = some r) :
    Leads s r.passes r.script ∧ r.effects.events = r.passes.flatMap (·.effects.events) ∧
      (r.passes.flatMap (·.effects.notices)).Sublist r.effects.notices := by
  induction nows generalizing s r with
  | nil =>
    cases h
    exact ⟨.refl s, rfl, .refl _⟩
  | cons now nows ih =>
    obtain ⟨d, r', hd, hr', rfl⟩ := drainAll_cons h
    obtain ⟨hleads, hevents, hnotices⟩ := leads_of_drainFrom hd
    obtain ⟨hleads', hevents', hnotices'⟩ := ih hr'
    refine ⟨hleads.trans hleads', ?_, ?_⟩
    · simp [hevents, hevents']
    · simp only [List.flatMap_append, Effects.notices_append, ← hnotices]
      exact (List.sublist_append_left _ _).append hnotices'

end Script

end Downbeat
