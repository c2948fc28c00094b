import Downbeat.Proofs.Beat.Whole
import Downbeat.Proofs.Script.Conservation
import Downbeat.Proofs.Script.Join

/-!
# What a script gets to until it stops

The entries that a script gets to tell all that it does : its time is the sum of their rests
(`Script.Leads.time`), and it hands over their events, each moved by the start and by the rests
before it (`timed`, `Script.Leads.events`). A chain of passes that ends with a stopped script goes
through the queue entry by entry, so it can be followed from the first entry on
(`Script.Leads.uncons`), plain entries in one go (`Script.Leads.split_plain`).

Rests of whole lengths add up without rounding (`WholeRests`).
-/

set_option linter.unusedSectionVars false

namespace Downbeat

variable {ε φ : Type}

/-! ## Events and the rests before them -/

/-- The events among the entries, each with the beats that are rested before it, of which there
are `time` before the first entry. -/
def timed (time : Beat) : List (Entry ε φ) → List (Beat × ε)
  | [] => []
  | .event e :: es => (time, e) :: timed time es
  | e :: es => timed (elapsed time [e]) es

theorem timed_cons (time : Beat) (e : Entry ε φ) (es : List (Entry ε φ)) :
    timed time (e :: es) = timed time [e] ++ timed (elapsed time [e]) es := by
  cases e <;> rfl

theorem timed_append (time : Beat) (es fs : List (Entry ε φ)) :
    timed time (es ++ fs) = timed time es ++ timed (elapsed time es) fs := by
  induction es generalizing time with
  | nil => rfl
  | cons e es ih =>
    rw [List.cons_append, timed_cons, ih, timed_cons time e es, elapsed_cons time e es,
      List.append_assoc]

theorem mem_of_mem_timed {time : Beat} {es : List (Entry ε φ)} {x : Beat × ε}
    (hx : x ∈ timed time es) : .event x.2 ∈ es := by
  induction es generalizing time with
  | nil => cases hx
  | cons e es ih =>
    rw [timed_cons] at hx
    rcases List.mem_append.1 hx with hx | hx
    · cases e with
      | event y =>
        obtain rfl := List.mem_singleton.1 hx
        exact List.mem_cons_self
      | _ => cases hx
    · exact List.mem_cons_of_mem _ (ih hx)

/-- The entry is an event, a rest or a marker. -/
def Entry.IsPlain : Entry ε φ → Prop
  | .event _ | .rest _ | .marker _ => True
  | .expand _ | .stop => False

/-! ## Rests of whole lengths -/

/-- The rests among the entries are whole, and sum to `n`. -/
inductive WholeRests : List (Entry ε φ) → Nat → Prop
  | nil : WholeRests [] 0
  | rest {es : List (Entry ε φ)} {n : Nat} (k : Nat) (more : WholeRests es n) :
      WholeRests (.rest (Float.ofNat k) :: es) (k + n)
  | other {e : Entry ε φ} {es : List (Entry ε φ)} {n : Nat} (h : ∀ d, e ≠ .rest d)
      (more : WholeRests es n) : WholeRests (e :: es) n

theorem isValidRest_ofNat {k : Nat} (h : k < 2 ^ 53) : Script.IsValidRest (Float.ofNat k) := by
  obtain ⟨hfin, hvalue⟩ := Beat.value_ofNat h
  rintro (hnan | hneg)
  · rw [Beat.isNaN_of_isFinite hfin] at hnan
    cases hnan
  · rw [Beat.lt_iff_value hfin Beat.isFinite_zero, hvalue, Beat.value_zero] at hneg
    exact absurd hneg (not_lt.2 (Nat.cast_nonneg k))

theorem elapsed_of_ne_rest {time : Beat} {e : Entry ε φ} (h : ∀ d, e ≠ .rest d) :
    elapsed time [e] = time := by
  cases e with
  | rest d => exact absurd rfl (h d)
  | _ => rfl

theorem elapsed_rest_ofNat {a k : Nat} (h : a + k < 2 ^ 53) :
    elapsed (Float.ofNat a) [(.rest (Float.ofNat k) : Entry ε φ)] = Float.ofNat (a + k) := by
  have hvalid : Script.IsValidRest (Float.ofNat k) := isValidRest_ofNat (by omega)
  rw [elapsed_singleton, Entry.rest?, if_pos hvalid]
  exact Beat.ofNat_add_ofNat h

namespace WholeRests

variable {es fs : List (Entry ε φ)} {m n : Nat}

theorem append (h : WholeRests es m) (h' : WholeRests fs n) : WholeRests (es ++ fs) (m + n) := by
  induction h with
  | nil => simpa using h'
  | rest k _ ih =>
    rw [List.cons_append, Nat.add_assoc]
    exact .rest k ih
  | other hne _ ih => exact .other hne ih

theorem elapsed_eq (h : WholeRests es n) {a : Nat} (ha : a + n < 2 ^ 53) :
    elapsed (Float.ofNat a) es = Float.ofNat (a + n) := by
  induction h generalizing a with
  | nil => rfl
  | rest k _ ih =>
    rw [elapsed_cons, elapsed_rest_ofNat (by omega), ih (by omega), Nat.add_assoc]
  | other hne _ ih => rw [elapsed_cons, elapsed_of_ne_rest hne, ih ha]

/-- Whole rests before all entries are added to those before each. -/
theorem timed_add (h : WholeRests es n) {a b : Nat} (hn : a + b + n < 2 ^ 53) :
    timed (Float.ofNat (a + b)) es =
      (timed (Float.ofNat b) es).map fun x => (Float.ofNat a + x.1, x.2) := by
  induction h generalizing b with
  | nil => rfl
  | rest k _ ih =>
    rw [timed_cons, timed_cons (Float.ofNat b), elapsed_rest_ofNat (by omega),
      elapsed_rest_ofNat (by omega), Nat.add_assoc, ih (by omega)]
    rfl
  | @other e es n hne _ ih =>
    rw [timed_cons, timed_cons (Float.ofNat b), elapsed_of_ne_rest hne, elapsed_of_ne_rest hne,
      ih hn, List.map_append]
    congr 1
    cases e with
    | event x =>
      rw [← Beat.ofNat_add_ofNat (by omega)]
      rfl
    | _ => rfl

/-- The beats rested before an event are whole. -/
theorem exists_of_mem_timed (h : WholeRests es n) {a : Nat} (ha : a + n < 2 ^ 53) {x : Beat × ε}
    (hx : x ∈ timed (Float.ofNat a) es) : ∃ m, m ≤ a + n ∧ x.1 = Float.ofNat m := by
  induction h generalizing a with
  | nil => cases hx
  | rest k _ ih =>
    rw [timed_cons, elapsed_rest_ofNat (by omega)] at hx
    obtain ⟨m, hm, hx⟩ := ih (by omega) hx
    exact ⟨m, by omega, hx⟩
  | @other e es n hne _ ih =>
    rw [timed_cons, elapsed_of_ne_rest hne] at hx
    rcases List.mem_append.1 hx with hx | hx
    · cases e with
      | event y =>
        obtain rfl := List.mem_singleton.1 hx
        exact ⟨a, by omega, rfl⟩
      | _ => cases hx
    · exact ih ha hx

end WholeRests

namespace Script

variable [Placed ε] [Subroutine φ ε] [Described φ]

/-- Along a chain the events are handed over at their own beats plus the start of the script
plus the rests before them. -/
theorem Leads.events {s t : Script ε φ} {ps : List (Pass ε φ)} (h : Leads s ps t) :
    ps.flatMap (·.effects.events) = (timed s.internal (ps.map Pass.entry)).map fun x =>
      Placed.moveTo (Placed.beat x.2 + s.start + x.1) x.2 := by
  induction h with
  | refl => rfl
  | putBack => rfl
  | @pass s left t e now ps _ reach _ ih =>
    obtain ⟨rest, -, rfl⟩ := reach_eq_some_iff.1 reach
    obtain ⟨hstart, -, hinternal, -⟩ :=
      (Pass.mk { s with queue := rest, begun := true } now e).after_eq
    rw [List.flatMap_cons, ih, hstart, hinternal, List.map_cons, timed_cons, List.map_append]
    congr 1
    cases e with
    | event x => exact Pass.events_of_event rfl
    | _ => exact Pass.events_eq_nil nofun

/-! ## Reports -/

omit [Placed ε] [Subroutine φ ε] [Described φ] in
theorem Report.tally_append (es fs : List (Entry ε φ)) :
    tally (es ++ fs) = tally es + tally fs := by
  show _ = Report.add _ _
  simp [tally, Report.add]

/-- Drains that all end well report the entries that they got to. -/
theorem tally_of_drainAll {fuel : Nat} {nows : List Beat} {s : Script ε φ} {r : Series ε φ}
    {reports : List Report} (h : s.drainAll fuel nows = some r)
    (hok : r.outcomes = reports.map .ok) : reports.sum = .tally (r.passes.map Pass.entry) := by
  induction nows generalizing s r reports with
  | nil =>
    cases h
    rw [List.map_eq_nil_iff.1 hok.symm]
    rfl
  | cons now nows ih =>
    obtain ⟨d, r', hd, hr', rfl⟩ := drainAll_cons h
    obtain ⟨report, reports, rfl, hreport, hreports⟩ := List.map_eq_cons_iff.1 hok.symm
    rw [List.sum_cons, ih hr' hreports.symm, tally_of_drainFrom hd hreport.symm, List.map_append,
      Report.tally_append]

theorem exists_drainAll_of_drainFrom {fuel : Nat} {now : Beat} {s : Script ε φ} {d : Drained ε φ}
    (h : drainFrom now fuel 0 s = some d) :
    ∃ r, s.drainAll fuel [now] = some r ∧ r.script = d.script := by
  refine ⟨⟨d.script, s.passes now fuel 0 ++ [],
    d.effects ++ { notices := d.script.restNotice now d.outcome } ++ {}, [d.outcome]⟩, ?_, rfl⟩
  rw [drainAll, drain, h]
  rfl

/-! ## From the first entry on -/

/-- A chain that ends with a stopped script begins with the first entry of the queue. -/
theorem Leads.uncons {s t : Script ε φ} {ps : List (Pass ε φ)} {e : Entry ε φ}
    {es : List (Entry ε φ)} (h : Leads s ps t) (hstop : t.stopped = true)
    (hgoing : s.stopped = false) (hqueue : s.queue.toList = e :: es) :
    ∃ p later, ps = p :: later ∧ Leads p.after later t ∧ p.entry = e ∧
      p.script.queue.toList = es ∧ p.script.stopped = false ∧ p.script.rolls = s.rolls := by
  cases h with
  | refl => exact absurd (hgoing.symm.trans hstop) Bool.false_ne_true
  | putBack => exact absurd (hgoing.symm.trans hstop) Bool.false_ne_true
  | @pass _ left _ e' now later _ reach rest =>
    have hcons := toList_of_reach reach
    rw [hqueue] at hcons
    obtain ⟨rfl, rfl⟩ := List.cons.inj hcons
    obtain ⟨queue, -, rfl⟩ := reach_eq_some_iff.1 reach
    exact ⟨_, later, rfl, rest, rfl, rfl, hgoing, rfl⟩

/-- A subroutine is replaced by its entries, at the end of the queue. -/
theorem Pass.after_of_expand {p : Pass ε φ} {f : φ} (h : p.entry = .expand f) :
    p.after.stopped = p.script.stopped ∧
      p.after.queue.toList = p.script.queue.toList ++
        (Subroutine.expand f (p.script.context p.now) p.script.rolls).1 ∧
      p.after.rolls = (Subroutine.expand f (p.script.context p.now) p.script.rolls :
        List (Entry ε φ) × Rolls).2 := by
  simp [after, done, h, consume, enqueue]

theorem Pass.after_of_stop {p : Pass ε φ} (h : p.entry = .stop) :
    p.after.stopped = true ∧ p.after.queue = p.script.queue ∧ p.after.rolls = p.script.rolls := by
  simp [after, done, h, consume, stop]

theorem Pass.after_of_isPlain {p : Pass ε φ} (h : p.entry.IsPlain) :
    p.after.stopped = p.script.stopped ∧ p.after.queue = p.script.queue ∧
      p.after.rolls = p.script.rolls := by
  cases he : p.entry with
  | rest d => by_cases hd : IsValidRest d <;> simp [after, done, he, consume, hd]
  | expand f => simp [he, Entry.IsPlain] at h
  | stop => simp [he, Entry.IsPlain] at h
  | _ => simp [after, done, he, consume]

/-- Plain entries at the head of the queue are gone through in one go. -/
theorem Leads.split_plain {s t : Script ε φ} {ps : List (Pass ε φ)} {es rest : List (Entry ε φ)}
    (h : Leads s ps t) (hstop : t.stopped = true) (hgoing : s.stopped = false)
    (hqueue : s.queue.toList = es ++ rest) (hplain : ∀ e ∈ es, e.IsPlain) :
    ∃ u first later, ps = first ++ later ∧ first.map Pass.entry = es ∧ Leads u later t ∧
      u.stopped = false ∧ u.queue.toList = rest ∧ u.rolls = s.rolls := by
  induction es generalizing s ps with
  | nil => exact ⟨s, [], ps, rfl, rfl, h, hgoing, hqueue, rfl⟩
  | cons e es ih =>
    obtain ⟨he, hes⟩ := List.forall_mem_cons.1 hplain
    obtain ⟨p, later, rfl, hlater, rfl, hleft, hstopped, hrolls⟩ := h.uncons hstop hgoing hqueue
    obtain ⟨hstopped', hqueue', hrolls'⟩ := Pass.after_of_isPlain he
    obtain ⟨u, first, last, rfl, hfirst, hu, hugoing, huqueue, hurolls⟩ :=
      ih hlater (hstopped'.trans hstopped) (hqueue' ▸ hleft) hes
    exact ⟨u, p :: first, last, rfl, by rw [List.map_cons, hfirst], hu, hugoing, huqueue,
      hurolls.trans (hrolls'.trans hrolls)⟩

end Script

end Downbeat
