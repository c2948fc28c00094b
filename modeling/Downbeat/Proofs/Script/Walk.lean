import Downbeat.Proofs.Script.Conservation
import Downbeat.Proofs.Script.Join

/-!
# Walks

What a script has to do at one beat of the host is a walk from entry to entry (`Script.Walks`), on
which a rest of no valid length is dropped. A single drain goes along a walk until it gets to a rest
of that kind or to its limit (`Walks.drainFrom_eq`). So a walk tells what drains at that beat do
that are made one after another, whatever stops each of them.

Besides the events, the drains of a series show the markers that they got to
(`Script.marks_of_drainAll`).
-/

set_option linter.unusedSectionVars false

namespace Downbeat

variable {ε φ : Type}

/-! ## Markers -/

/-- Whether a marker is reported. -/
def Notice.isMark : Notice → Bool
  | .marked .. => true
  | _ => false

namespace Effects

/-- The markers among what is reported. -/
def marks (fx : Effects ε) : List Notice := fx.notices.filter (·.isMark)

@[simp] theorem marks_append (a b : Effects ε) : (a ++ b).marks = a.marks ++ b.marks :=
  List.filter_append ..

@[simp] theorem marks_empty : ({} : Effects ε).marks = [] := rfl

end Effects

/-! ## Faults -/

/-- The fault of an entry that is a rest of no valid length. -/
def Entry.fault? : Entry ε φ → Option Script.Fault
  | .rest d => if Script.IsValidRest d then none else some (.invalidRest d)
  | _ => none

namespace Script

variable [Placed ε] [Subroutine φ ε] [Described φ]

/-- An entry without a fault is worked off. -/
theorem consume_eq_ok {now : Beat} {s : Script ε φ} {e : Entry ε φ} (h : e.fault? = none) :
    consume now s e = .ok (Pass.mk s now e).done := by
  cases hc : consume now s e with
  | ok r => rw [Pass.done_of_consume hc]
  | error f =>
    obtain ⟨d, rfl, hd, -⟩ := eq_rest_of_consume_eq_error hc
    simp [Entry.fault?, hd] at h

/-- An entry with a fault is not, and changes nothing. -/
theorem consume_eq_error {now : Beat} {s : Script ε φ} {e : Entry ε φ} {f : Fault}
    (h : e.fault? = some f) :
    consume now s e = .error f ∧ (Pass.mk s now e).done = (s, {}) := by
  cases e with
  | rest d =>
    by_cases hd : IsValidRest d
    · simp [Entry.fault?, hd] at h
    · obtain rfl : Fault.invalidRest d = f := by simpa [Entry.fault?, hd] using h
      simp [Pass.done, consume, hd]
  | _ => cases h

theorem fault?_of_worked {now : Beat} {s t : Script ε φ} {e : Entry ε φ} {fx : Effects ε}
    (h : consume now s e = .ok (t, fx)) : e.fault? = none := by
  cases hf : e.fault? with
  | none => rfl
  | some f =>
    rw [(consume_eq_error hf).1] at h
    cases h

theorem limit_after {s left : Script ε φ} {e : Entry ε φ} (h : s.reach = some (e, left))
    (now : Beat) : (Pass.mk left now e).after.limit = s.limit := by
  obtain ⟨rest, -, rfl⟩ := reach_eq_some_iff.1 h
  cases hf : e.fault? with
  | none => exact (sameMake_of_consume (consume_eq_ok hf)).limit
  | some f => rw [Pass.after, (consume_eq_error hf).2]

theorem begun_after {s left : Script ε φ} {e : Entry ε φ} (h : s.reach = some (e, left))
    (now : Beat) : (Pass.mk left now e).after.begun = true := by
  obtain ⟨rest, -, rfl⟩ := reach_eq_some_iff.1 h
  cases hf : e.fault? with
  | none => exact (sameMake_of_consume (consume_eq_ok hf)).begun
  | some f => rw [Pass.after, (consume_eq_error hf).2]

theorem Leads.limit {s t : Script ε φ} {ps : List (Pass ε φ)} (h : Leads s ps t) :
    t.limit = s.limit := by
  induction h with
  | refl => rfl
  | putBack => rfl
  | pass _ reach _ ih => exact ih.trans (limit_after reach _)

/-! ## Walks -/

/-- At the beat `now`, the script may get to the entries of the passes one after another, and comes
to be `t`. -/
inductive Walks (now : Beat) : Script ε φ → List (Pass ε φ) → Script ε φ → Prop
  | refl (s : Script ε φ) : Walks now s [] s
  | pass {s left t : Script ε φ} {e : Entry ε φ} {ps : List (Pass ε φ)}
      (ready : s.isReady now = true) (reach : s.reach = some (e, left))
      (rest : Walks now (Pass.mk left now e).after ps t) : Walks now s (⟨left, now, e⟩ :: ps) t

namespace Walks

variable {now : Beat} {s t u : Script ε φ} {ps qs : List (Pass ε φ)}

theorem append (h : Walks now s ps t) (h' : Walks now t qs u) : Walks now s (ps ++ qs) u := by
  induction h with
  | refl => exact h'
  | pass ready reach _ ih => exact .pass ready reach (ih h')

theorem split (h : Walks now s (ps ++ qs) u) : ∃ t, Walks now s ps t ∧ Walks now t qs u := by
  induction ps generalizing s with
  | nil => exact ⟨s, .refl s, h⟩
  | cons p ps ih =>
    cases h with
    | pass ready reach rest =>
      obtain ⟨t, hps, hqs⟩ := ih rest
      exact ⟨t, .pass ready reach hps, hqs⟩

theorem uncons {p : Pass ε φ} (h : Walks now s (p :: ps) u) :
    s.isReady now = true ∧ s.reach = some (p.entry, p.script) ∧ p.now = now ∧
      Walks now p.after ps u := by
  cases h with
  | pass ready reach rest => exact ⟨ready, reach, rfl, rest⟩

theorem limit (h : Walks now s ps t) : t.limit = s.limit := by
  induction h with
  | refl => rfl
  | pass _ reach _ ih => exact ih.trans (limit_after reach now)

theorem begun (h : Walks now s ps t) (hne : ps ≠ []) : t.begun = true := by
  induction h with
  | refl => exact absurd rfl hne
  | @pass s left t e ps _ reach rest ih =>
    by_cases hps : ps = []
    · subst hps
      cases rest
      exact begun_after reach now
    · exact ih hps

end Walks

/-! ## Drains along a walk -/

/-- What a drain did that worked off the entries of the passes before. -/
def Drained.afterAll (ps : List (Pass ε φ)) (d : Drained ε φ) : Drained ε φ :=
  ps.foldr (fun p d => d.after p.entry p.effects) d

theorem Drained.script_afterAll (ps : List (Pass ε φ)) (d : Drained ε φ) :
    (d.afterAll ps).script = d.script := by
  induction ps with
  | nil => rfl
  | cons p ps ih => exact ih

theorem Drained.outcome_afterAll (ps : List (Pass ε φ)) (d : Drained ε φ) :
    (d.afterAll ps).outcome = d.outcome.map (Report.tally (ps.map Pass.entry) + ·) := by
  induction ps with
  | nil =>
    have hzero : Report.tally ([] : List (Entry ε φ)) = 0 := rfl
    cases hd : d.outcome <;> simp [afterAll, hd, Except.map, hzero]
  | cons p ps ih =>
    show (d.afterAll ps).outcome.map _ = _
    rw [ih, List.map_cons, Report.tally_cons]
    cases d.outcome <;> simp [Except.map, add_assoc]

namespace Walks

variable {now : Beat} {s t left : Script ε φ} {ps : List (Pass ε φ)} {e : Entry ε φ}
  {fuel : Nat}

/-- A drain goes along a walk without a fault as long as it is not at its limit. -/
theorem drainFrom_eq (h : Walks now s ps t) (spent : Nat)
    (hok : ∀ p ∈ ps, p.entry.fault? = none)
    (hroom : ∀ n < spent + ps.length, s.isAtLimit n = false) (fuel : Nat) :
    drainFrom now (ps.length + fuel) spent s =
        (drainFrom now fuel (spent + ps.length) t).map (.afterAll ps) ∧
      passes now (ps.length + fuel) spent s = ps ++ passes now fuel (spent + ps.length) t := by
  induction h generalizing spent with
  | refl =>
    rw [List.length_nil, Nat.zero_add]
    exact ⟨(congrFun Option.map_id _).symm, rfl⟩
  | @pass s left t e ps ready reach _ ih =>
    obtain ⟨hfault, hok⟩ := List.forall_mem_cons.1 hok
    rw [List.length_cons] at hroom ⊢
    have hturn : s.turn now spent = .worked e (Pass.mk left now e).after
        (Pass.mk left now e).effects := by
      rw [turn_eq_of_reach ready (hroom spent (by omega)) reach, consume_eq_ok hfault]
      rfl
    have hlimit : ∀ n < spent + 1 + ps.length,
        (Pass.mk left now e).after.isAtLimit n = false := by
      intro n hn
      rw [isAtLimit, limit_after reach now]
      exact hroom n (by omega)
    obtain ⟨hdrain, hpasses⟩ := ih (spent + 1) hok hlimit
    have hfuel : ps.length + 1 + fuel = ps.length + fuel + 1 := by omega
    have hspent : spent + (ps.length + 1) = spent + 1 + ps.length := by omega
    rw [hfuel, hspent]
    constructor
    · rw [drainFrom_succ_of_worked hturn, hdrain, Option.map_map]
      rfl
    · rw [passes, reach, hturn]
      exact congrArg _ hpasses

variable (h : Walks now s ps t) (hok : ∀ p ∈ ps, p.entry.fault? = none)
  (hroom : ∀ n < ps.length, s.isAtLimit n = false) (hfuel : ps.length < fuel)
include h hok hroom hfuel

/-- A drain that is done with a walk, but not with its work, goes on from where the walk gets to. -/
theorem exists_drainFrom_eq : ∃ k,
    drainFrom now fuel 0 s = (drainFrom now (k + 1) ps.length t).map (.afterAll ps) ∧
      passes now fuel 0 s = ps ++ passes now (k + 1) ps.length t := by
  obtain ⟨k, rfl⟩ := Nat.exists_eq_add_of_lt hfuel
  have hgoes := h.drainFrom_eq 0 hok (by rwa [Nat.zero_add]) (k + 1)
  rw [Nat.zero_add] at hgoes
  exact ⟨k, hgoes⟩

/-- A drain ends well where a walk leaves nothing to do. -/
theorem drainFrom_of_idle (hidle : t.isReady now = false ∨ t.reach = none) :
    drainFrom now fuel 0 s = some (.afterAll ps ⟨t, {}, .ok {}⟩) ∧
      passes now fuel 0 s = ps := by
  obtain ⟨k, hdrain, hpasses⟩ := h.exists_drainFrom_eq hok hroom hfuel
  rw [hdrain, hpasses, Script.drainFrom_of_idle hidle]
  refine ⟨rfl, ?_⟩
  rw [passes, turn_eq_idle hidle]
  cases t.reach <;> exact List.append_nil ps

/-- A drain ends with a fault where a walk gets to a rest of no valid length. -/
theorem drainFrom_of_fault {f : Fault} (ready : t.isReady now = true)
    (reach : t.reach = some (e, left)) (hfault : e.fault? = some f)
    (room : t.isAtLimit ps.length = false) :
    drainFrom now fuel 0 s = some (.afterAll ps ⟨left, {}, .error f⟩) ∧
      passes now fuel 0 s = ps ++ [⟨left, now, e⟩] := by
  obtain ⟨k, hdrain, hpasses⟩ := h.exists_drainFrom_eq hok hroom hfuel
  have hturn : t.turn now ps.length = .broken left f := by
    rw [turn_eq_of_reach ready room reach, (consume_eq_error hfault).1]
  obtain ⟨d, rfl⟩ : ∃ d, f = .invalidRest d := by
    cases e with
    | rest d =>
      by_cases hd : IsValidRest d
      · simp [Entry.fault?, hd] at hfault
      · exact ⟨d, by simpa [Entry.fault?, hd] using hfault.symm⟩
    | _ => cases hfault
  rw [hdrain, hpasses, drainFrom, hturn, passes, reach, hturn]
  exact ⟨rfl, rfl⟩

/-- A drain ends with a fault where a walk goes on beyond the limit, and puts the entry back. -/
theorem drainFrom_of_limit (ready : t.isReady now = true) (reach : t.reach = some (e, left))
    (full : t.isAtLimit ps.length = true) :
    drainFrom now fuel 0 s = some (.afterAll ps
        ⟨{ t with begun := true }, {}, .error (.limitReached (t.limit.getD 0) now)⟩) ∧
      passes now fuel 0 s = ps := by
  obtain ⟨k, hdrain, hpasses⟩ := h.exists_drainFrom_eq hok hroom hfuel
  have hturn : t.turn now ps.length =
      .broken { t with begun := true } (.limitReached (t.limit.getD 0) now) := by
    simp [turn_eq, ready, reach, full]
  rw [hdrain, hpasses, drainFrom, hturn, passes, reach, hturn]
  exact ⟨rfl, List.append_nil ps⟩

end Walks

/-- A drain that ends well has gone along a walk without a fault, to where nothing is left to do. -/
theorem walks_of_drainFrom {now : Beat} {fuel spent : Nat} {s : Script ε φ} {d : Drained ε φ}
    {report : Report} (h : drainFrom now fuel spent s = some d) (hok : d.outcome = .ok report) :
    Walks now s (passes now fuel spent s) d.script ∧
      (∀ p ∈ passes now fuel spent s, p.entry.fault? = none) ∧
      (passes now fuel spent s).length < fuel := by
  induction fuel generalizing spent s d report with
  | zero => cases h
  | succ fuel ih =>
    have hspec := turn_spec now spent s
    rw [drainFrom] at h
    rw [passes]
    generalize s.turn now spent = turn at h hspec ⊢
    cases hspec with
    | idle _ =>
      cases h
      cases s.reach <;> exact ⟨.refl s, List.forall_mem_nil _, Nat.succ_pos fuel⟩
    | putBack =>
      cases h
      cases hok
    | dropped =>
      cases h
      cases hok
    | @worked e left t fx ready _ reach done =>
      obtain ⟨d, hd, rfl⟩ := Option.map_eq_some_iff.1 h
      obtain ⟨rest, hrest⟩ : ∃ rest, d.outcome = .ok rest := by
        cases hd' : d.outcome with
        | error f => simp [Drained.after, hd', Except.map] at hok
        | ok rest => exact ⟨rest, rfl⟩
      obtain ⟨hwalks, hfaults, hlength⟩ := ih hd hrest
      rw [reach]
      refine ⟨.pass ready reach ?_, ?_, Nat.succ_lt_succ hlength⟩
      · rw [Pass.after, Pass.done_of_consume done]
        exact hwalks
      · exact List.forall_mem_cons.2 ⟨fault?_of_worked done, hfaults⟩

/-! ## Series -/

theorem drainAll_of_drainFrom {now : Beat} {nows : List Beat} {fuel : Nat} {s t : Script ε φ}
    {d : Drained ε φ} {r : Series ε φ} (hd : drainFrom now fuel 0 s = some d)
    (ht : d.script = t) (hr : t.drainAll fuel nows = some r) : s.drainAll fuel (now :: nows) =
      some ⟨r.script, s.passes now fuel 0 ++ r.passes,
        d.effects ++ { notices := t.restNotice now d.outcome } ++ r.effects,
        d.outcome :: r.outcomes⟩ := by
  subst ht
  simp [drainAll, drain, hd, hr]

theorem marks_restNotice (s : Script ε φ) (now : Beat) (outcome : Except Fault Report) :
    ({ notices := s.restNotice now outcome } : Effects ε).marks = [] := by
  cases outcome with
  | error f => rfl
  | ok r =>
    rw [restNotice]
    split <;> rfl

/-- The drains of a series report the markers that they got to. -/
theorem marks_of_drainAll {fuel : Nat} {nows : List Beat} {s : Script ε φ} {r : Series ε φ}
    (h : s.drainAll fuel nows = some r) :
    r.effects.marks = r.passes.flatMap (·.effects.marks) := by
  induction nows generalizing s r with
  | nil =>
    cases h
    rfl
  | cons now nows ih =>
    obtain ⟨d, r', hd, hr', rfl⟩ := drainAll_cons h
    have hmarks : d.effects.marks = (s.passes now fuel 0).flatMap (·.effects.marks) := by
      rw [Effects.marks, (leads_of_drainFrom hd).2.2, List.filter_flatMap]
      rfl
    rw [Effects.marks_append, Effects.marks_append, marks_restNotice, List.append_nil, hmarks,
      ih hr', List.flatMap_append]

end Script

end Downbeat
