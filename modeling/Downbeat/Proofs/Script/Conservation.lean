import Downbeat.Playback
import Downbeat.Proofs.Script.Passes

/-!
# No entry is lost

A script is given entries, moved, stopped and drained in any order (`Script.Call`,
`Script.run`). Each call leaves a record of the entries that were given to the script, of the
entries it got to, and of how a drain ended (`Script.Record`). An entry arrives when it is
given to the script, or when a subroutine that brings it on is worked off, and it is consumed
when the script gets to it; the entry that a drain puts back at its limit is not.

At any moment, also within a drain and whatever fault ended the drains before, the entries
consumed so far followed by the queue are the entries that have arrived, in order of arrival
(`Script.run_conserves`). A drain that ends well reports the entries it consumed
(`Script.tally_of_drainFrom`), and a stopped script consumes nothing
(`Script.stopped_of_run`).
-/

set_option linter.unusedSectionVars false

namespace Downbeat

variable {ε φ : Type}

/-- The kinds of entries. -/
inductive Entry.Kind where
  | event
  | rest
  | expand
  | marker
  | stop
deriving DecidableEq, Repr

/-- The kind of an entry. -/
def Entry.kind : Entry ε φ → Kind
  | .event _ => .event
  | .rest _ => .rest
  | .expand _ => .expand
  | .marker _ => .marker
  | .stop => .stop

namespace Script

/-! ## Reports -/

/-- The number of entries of each kind but stops. -/
def Report.tally (es : List (Entry ε φ)) : Report :=
  let kinds := es.map Entry.kind
  { injected := kinds.count .event
    rests := kinds.count .rest
    expanded := kinds.count .expand
    markers := kinds.count .marker }

theorem Report.tally_cons (e : Entry ε φ) (es : List (Entry ε φ)) :
    tally (e :: es) = ofEntry e + tally es := by
  show _ = Report.add _ _
  cases e <;> simp [tally, ofEntry, Report.add, Entry.kind, Nat.add_comm]

variable [Placed ε] [Subroutine φ ε] [Described φ]

/-- A drain that ends well reports the entries that it got to. -/
theorem tally_of_drainFrom {now : Beat} {fuel spent : Nat} {s : Script ε φ} {d : Drained ε φ}
    {report : Report} (h : drainFrom now fuel spent s = some d) (hok : d.outcome = .ok report) :
    report = .tally ((passes now fuel spent s).map Pass.entry) := by
  induction fuel generalizing spent s d report with
  | zero => cases h
  | succ fuel ih =>
    have hspec := turn_spec now spent s
    rw [drainFrom] at h
    rw [passes]
    generalize s.turn now spent = turn at h hspec ⊢
    cases hspec with
    | idle _ =>
      cases h
      cases hok
      cases s.reach <;> rfl
    | putBack =>
      cases h
      cases hok
    | dropped =>
      cases h
      cases hok
    | @worked e left t fx _ _ reach _ =>
      obtain ⟨d, hd, rfl⟩ := Option.map_eq_some_iff.1 h
      rw [reach, List.map_cons, Report.tally_cons]
      cases hrest : d.outcome with
      | error f => simp [Drained.after, hrest, Except.map] at hok
      | ok rest =>
        have hsum : Report.ofEntry e + rest = report := by
          simpa [Drained.after, hrest, Except.map] using hok
        rw [← hsum, ih hd hrest]

/-! ## Drains under way -/

/-- The passes of a drain form a chain, whether or not the drain comes to an end. -/
theorem exists_leads_passes (now : Beat) (fuel spent : Nat) (s : Script ε φ) :
    ∃ t, Leads s (passes now fuel spent s) t := by
  induction fuel generalizing spent s with
  | zero => exact ⟨s, .refl s⟩
  | succ fuel ih =>
    have hspec := turn_spec now spent s
    rw [passes]
    generalize s.turn now spent = turn at hspec ⊢
    cases hspec with
    | idle _ =>
      refine ⟨s, ?_⟩
      cases s.reach <;> exact .refl s
    | putBack ready full reach =>
      rw [reach]
      exact ⟨s, .refl s⟩
    | dropped ready room reach invalid =>
      rw [reach]
      exact ⟨_, .pass (stopped_of_isReady ready) reach (.refl _)⟩
    | @worked e left t fx ready room reach done =>
      obtain ⟨u, hu⟩ := ih (spent + 1) t
      have hdone : (Pass.mk left now e).done = (t, fx) := Pass.done_of_consume done
      rw [reach]
      refine ⟨u, .pass (stopped_of_isReady ready) reach ?_⟩
      rw [Pass.after, hdone]
      exact hu

/-- A stopped script gets to nothing, and stays as it is. -/
theorem Leads.of_stopped {s t : Script ε φ} {ps : List (Pass ε φ)} (h : Leads s ps t)
    (hs : s.stopped = true) :
    ps = [] ∧ t.stopped = true ∧ t.queue = s.queue ∧ t.rolls = s.rolls := by
  cases h with
  | refl => exact ⟨rfl, hs, rfl, rfl⟩
  | putBack => exact ⟨rfl, hs, rfl, rfl⟩
  | pass going => simp [going] at hs

/-! ## Calls -/

/-- What can be done to a script. -/
inductive Call (ε φ : Type) where
  | enqueue (es : List (Entry ε φ))
  | seed (f : φ)
  | stop
  | moveTo (b : Beat)
  | drain (now : Beat)

/-- What came of a call. -/
structure Record (ε φ : Type) where
  /-- The entries that were given to the script. -/
  supplied : List (Entry ε φ) := []
  /-- The entries that the script got to. -/
  passes : List (Pass ε φ) := []
  /-- The report or the fault of a drain. -/
  outcome : Option (Except Fault Report) := none

namespace Record

/-- The entries that arrived with a call, in order. -/
def arrived (r : Record ε φ) : List (Entry ε φ) := r.supplied ++ r.passes.flatMap Pass.added

/-- The entries that were consumed by a call, in order. -/
def consumed (r : Record ε φ) : List (Entry ε φ) := r.passes.map Pass.entry

/-- Whether a drain ended well. -/
def endedWell (r : Record ε φ) : Option Bool := r.outcome.map Except.isOk

end Record

/-- The script after a call, and the record of the call. -/
def perform (fuel : Nat) : Call ε φ → Script ε φ → Option (Script ε φ × Record ε φ)
  | .enqueue es, s => some (s.enqueue es, { supplied := es })
  | .seed f, s => some (s.seed f, { supplied := [.expand f] })
  | .stop, s => some (s.stop.1, {})
  | .moveTo b, s => some (Placed.moveTo b s, {})
  | .drain now, s => (s.drain fuel now).map fun d =>
      (d.script, { passes := s.passes now fuel 0, outcome := some d.outcome })

/-- The script after some calls, however its drains end, and the records of the calls. -/
def run (fuel : Nat) : List (Call ε φ) → Script ε φ → Option (Script ε φ × List (Record ε φ))
  | [], s => some (s, [])
  | c :: calls, s => do
    let (t, r) ← s.perform fuel c
    let (u, history) ← t.run fuel calls
    return (u, r :: history)

theorem run_cons {fuel : Nat} {c : Call ε φ} {calls : List (Call ε φ)} {s u : Script ε φ}
    {history : List (Record ε φ)} (h : s.run fuel (c :: calls) = some (u, history)) :
    ∃ t r rest, s.perform fuel c = some (t, r) ∧ t.run fuel calls = some (u, rest) ∧
      history = r :: rest := by
  simp only [run, bind, Option.bind_eq_some_iff, Option.pure_def, Option.some.injEq,
    Prod.mk.injEq] at h
  obtain ⟨⟨t, r⟩, ht, ⟨_, rest⟩, hrest, rfl, rfl⟩ := h
  exact ⟨t, r, rest, ht, hrest, rfl⟩

/-! ## Conservation -/

/-- The queue of `s` with the entries that arrived since are the entries consumed since with
the queue of `t`. -/
def Conserves (s : Script ε φ) (arrived consumed : List (Entry ε φ)) (t : Script ε φ) : Prop :=
  s.queue.toList ++ arrived = consumed ++ t.queue.toList

theorem Conserves.trans {s t u : Script ε φ} {as cs as' cs' : List (Entry ε φ)}
    (h : s.Conserves as cs t) (h' : t.Conserves as' cs' u) :
    s.Conserves (as ++ as') (cs ++ cs') u := by
  unfold Conserves at *
  rw [← List.append_assoc, h, List.append_assoc, h', List.append_assoc]

/-- What a chain of passes has consumed when it gets to one of them, before and after the
entry is worked off. -/
theorem Leads.conserves_at {s t : Script ε φ} {before later : List (Pass ε φ)} {p : Pass ε φ}
    (h : Leads s (before ++ p :: later) t) :
    s.Conserves (before.flatMap Pass.added) (before.map Pass.entry ++ [p.entry]) p.script ∧
      s.Conserves (before.flatMap Pass.added ++ p.added) (before.map Pass.entry ++ [p.entry])
        p.after := by
  obtain ⟨u, hu, -, hreach, -⟩ := h.cut
  have hbefore : s.Conserves (before.flatMap Pass.added) (before.map Pass.entry ++ [p.entry])
      p.script := by
    unfold Conserves
    rw [hu.queue, toList_of_reach hreach, List.append_assoc, List.singleton_append]
  refine ⟨hbefore, ?_⟩
  have hpass : p.script.Conserves p.added [] p.after := p.after_eq.2.2.2.symm
  simpa using hbefore.trans hpass

/-- A call conserves the entries; a drain that ends well reports those it consumed, and a
stopped script consumes none. -/
theorem perform_conserves {fuel : Nat} {c : Call ε φ} {s t : Script ε φ} {r : Record ε φ}
    (h : s.perform fuel c = some (t, r)) :
    s.Conserves r.arrived r.consumed t ∧
      (∀ report, r.outcome = some (.ok report) → report = .tally r.consumed) ∧
      (s.stopped = true → r.consumed = [] ∧ t.stopped = true) := by
  cases c with
  | drain now =>
    obtain ⟨_, hdrain, hresult⟩ := Option.map_eq_some_iff.1 h
    obtain ⟨d, hd, rfl⟩ := Option.map_eq_some_iff.1 hdrain
    obtain ⟨rfl, rfl⟩ := Prod.mk.inj hresult
    have hleads := (leads_of_drainFrom hd).1
    refine ⟨hleads.queue, ?_, ?_⟩
    · intro report hok
      exact tally_of_drainFrom hd (Option.some.inj hok)
    · intro hs
      obtain ⟨hnil, hstopped, -⟩ := hleads.of_stopped hs
      exact ⟨by simp [Record.consumed, hnil], hstopped⟩
  | moveTo b =>
    cases h
    refine ⟨?_, ?_, fun hs => ⟨rfl, ?_⟩⟩
    · simp only [Conserves, Placed.moveTo, Record.arrived, Record.consumed]
      split <;> simp
    · intro report hok
      cases hok
    · simp only [Placed.moveTo]
      split <;> exact hs
  | _ =>
    cases h
    refine ⟨?_, ?_, fun hs => ⟨rfl, ?_⟩⟩
    · simp [Conserves, Record.arrived, Record.consumed, enqueue, seed, stop]
    · intro report hok
      cases hok
    · simp [enqueue, seed, stop, hs]

/-- A script stays stopped, and consumes nothing from then on. -/
theorem stopped_of_run {fuel : Nat} {calls : List (Call ε φ)} {s t : Script ε φ}
    {history : List (Record ε φ)} (h : s.run fuel calls = some (t, history))
    (hs : s.stopped = true) : history.flatMap Record.consumed = [] ∧ t.stopped = true := by
  induction calls generalizing s history with
  | nil =>
    cases h
    exact ⟨rfl, hs⟩
  | cons c calls ih =>
    obtain ⟨u, r, rest, hu, hrest, rfl⟩ := run_cons h
    obtain ⟨-, -, hstopped⟩ := perform_conserves hu
    obtain ⟨hnone, hustopped⟩ := hstopped hs
    obtain ⟨hrestnone, htstopped⟩ := ih hrest hustopped
    rw [List.flatMap_cons, hnone, hrestnone]
    exact ⟨rfl, htstopped⟩

theorem conserves_of_run {fuel : Nat} {calls : List (Call ε φ)} {s t : Script ε φ}
    {history : List (Record ε φ)} (h : s.run fuel calls = some (t, history)) :
    s.Conserves (history.flatMap Record.arrived) (history.flatMap Record.consumed) t ∧
      ∀ r ∈ history, ∀ report, r.outcome = some (.ok report) → report = .tally r.consumed := by
  induction calls generalizing s history with
  | nil =>
    cases h
    exact ⟨by simp [Conserves], fun _ hr => nomatch hr⟩
  | cons c calls ih =>
    obtain ⟨u, r, rest, hu, hrest, rfl⟩ := run_cons h
    obtain ⟨hstep, hreport, -⟩ := perform_conserves hu
    obtain ⟨hconserves, hreports⟩ := ih hrest
    exact ⟨hstep.trans hconserves, List.forall_mem_cons.2 ⟨hreport, hreports⟩⟩

/-- However a script is given entries, moved, stopped and drained, the entries consumed so far
with the queue are the entries that arrived, in order : after the calls, and at every entry
that a further drain gets to, be it ever done or not. A drain that ends well reports the entries
it consumed, and once the script is stopped, within a drain or between two, it consumes none. -/
theorem run_conserves {fuel : Nat} {calls : List (Call ε φ)} {s t : Script ε φ}
    {history : List (Record ε φ)} (h : s.run fuel calls = some (t, history)) :
    s.Conserves (history.flatMap Record.arrived) (history.flatMap Record.consumed) t ∧
      (∀ now n before p later, t.passes now n 0 = before ++ p :: later →
        s.Conserves (history.flatMap Record.arrived ++ before.flatMap Pass.added)
            (history.flatMap Record.consumed ++ (before.map Pass.entry ++ [p.entry])) p.script ∧
          s.Conserves (history.flatMap Record.arrived ++ (before.flatMap Pass.added ++ p.added))
            (history.flatMap Record.consumed ++ (before.map Pass.entry ++ [p.entry])) p.after ∧
          (p.after.stopped = true → later = [])) ∧
      (∀ r ∈ history, ∀ report, r.outcome = some (.ok report) → report = .tally r.consumed) ∧
      (t.stopped = true → ∀ n further u history', t.run n further = some (u, history') →
        history'.flatMap Record.consumed = [] ∧ u.stopped = true) := by
  obtain ⟨hconserves, hreports⟩ := conserves_of_run h
  refine ⟨hconserves, ?_, hreports, ?_⟩
  · intro now n before p later hpasses
    obtain ⟨u, hleads⟩ := exists_leads_passes now n 0 t
    rw [hpasses] at hleads
    obtain ⟨hgot, hworked⟩ := hleads.conserves_at
    refine ⟨hconserves.trans hgot, hconserves.trans hworked, fun hstopped => ?_⟩
    obtain ⟨-, -, -, -, hlater⟩ := hleads.cut
    exact (hlater.of_stopped hstopped).1
  · intro hstopped n further u history' hfurther
    exact stopped_of_run hfurther hstopped

/-- A script that gets to at most three entries in a drain. -/
def hectic : Script Playback.ShowEvent Phase :=
  { start := 1
    runahead := 1
    queue := .ofList [.marker (.note "ready")]
    limit := some 3 }

/-- Drains that end with each of the faults, and well, and a stop. -/
def rush : List (Call Playback.ShowEvent Phase) :=
  [.enqueue [.cue (.light "dusk" "blue"), .rest (-1), .rest 2], .drain 0, .moveTo 5,
    .seed (.opening {}), .drain 2, .drain 2, .enqueue [.stop, .marker (.note "never")], .drain 6,
    .seed .outro, .drain 60]

theorem run_conserves_rush : ∃ t history, hectic.run 20 rush = some (t, history) ∧
    history.filterMap Record.endedWell =
      [false, false, true, true, true] ∧
    t.stopped = true ∧
    hectic.Conserves (history.flatMap Record.arrived) (history.flatMap Record.consumed) t ∧
    (∀ r ∈ history, ∀ report, r.outcome = some (.ok report) → report = .tally r.consumed) := by
  have hrun : (hectic.run 20 rush).map (fun (t, history) =>
      (t.stopped, history.filterMap Record.endedWell)) =
        some (true, [false, false, true, true, true]) := by
    decide +kernel
  obtain ⟨⟨t, history⟩, h, houtcomes⟩ := Option.map_eq_some_iff.1 hrun
  obtain ⟨hstopped, houtcomes⟩ := Prod.mk.inj houtcomes
  obtain ⟨hconserves, -, hreports, -⟩ := run_conserves h
  exact ⟨t, history, h, houtcomes, hstopped, hconserves, hreports⟩

end Script

end Downbeat
