import Downbeat.Encounter.Pattern
import Downbeat.Proofs.Script.Course
import Downbeat.Proofs.Script.Nesting
import Downbeat.Proofs.Script.Position

/-!
# The clock of a sequence

A sequence has a clock of its own : while it is put together, the durations of its entries are added
up, the zeros of those that take no time included. A script that works the sequence off adds up the
rests only. Both sums are the same, to the last bit (`Sequence.relativeBeat_extend`), since adding
zero changes no beat but the zero below zero, which neither of them comes to.

So a script that begins with a sequence gets to each of its entries at the time that the clock of
the sequence had shown when the entry was appended (`Script.Leads.works`). Subroutines in between do
not change this, as their entries go to the end of the queue (`Script.keepsTime_of_drainAll`).
-/

set_option linter.unusedSectionVars false

namespace Downbeat

variable {ε φ : Type}

/-! ## Putting a sequence together -/

namespace Sequence

/-- The calls that put a sequence together. -/
inductive Call (ε φ : Type) where
  | event (e : ε)
  | rest (duration : Beat)
  | expand (f : φ)
  | note (text : String)
  | todo (text : String)
  | log (text : String)
  | stop
  | push (e : Entry ε φ)
  | extend (es : List (Entry ε φ))
  | compose (p : Pattern)

/-- The entries that a call appends. -/
def Call.entries [Embeds Cue ε] : Call ε φ → List (Entry ε φ)
  | event e => [.event e]
  | rest d => [.rest d]
  | expand f => [.expand f]
  | note text => [.marker (.note text)]
  | todo text => [.marker (.todo text)]
  | log text => [.marker (.log text)]
  | stop => [.stop]
  | push e => [e]
  | extend es => es
  | compose p => p.entries

/-- The sequence after a call. -/
def perform [Embeds Cue ε] (q : Sequence ε φ) : Call ε φ → Sequence ε φ
  | .event e => q.push (.event e)
  | .rest d => q.push (.rest d)
  | .expand f => q.push (.expand f)
  | .note text => q.push (.marker (.note text))
  | .todo text => q.push (.marker (.todo text))
  | .log text => q.push (.marker (.log text))
  | .stop => q.push .stop
  | .push e => q.push e
  | .extend es => q.extend es
  | .compose p => p.compose q

/-- The sequence that the calls put together. -/
def build [Embeds Cue ε] (calls : List (Call ε φ)) : Sequence ε φ := calls.foldl perform {}

/-- Appends entries one by one, and tells the beat of the sequence at which each is appended. -/
def appended (q : Sequence ε φ) : List (Entry ε φ) → List (Beat × Entry ε φ)
  | [] => []
  | e :: es => (q.relativeBeat, e) :: (q.push e).appended es

/-- What the calls append, with the beats of the sequence. -/
def authored [Embeds Cue ε] (q : Sequence ε φ) : List (Call ε φ) → List (Beat × Entry ε φ)
  | [] => []
  | c :: calls => q.appended c.entries ++ (q.perform c).authored calls

theorem extend_append (q : Sequence ε φ) (es fs : List (Entry ε φ)) :
    q.extend (es ++ fs) = (q.extend es).extend fs := by
  simp [extend, List.append_assoc]

theorem appended_append (q : Sequence ε φ) (es fs : List (Entry ε φ)) :
    q.appended (es ++ fs) = q.appended es ++ (q.extend es).appended fs := by
  induction es generalizing q with
  | nil => simp [appended, extend]
  | cons e es ih => rw [List.cons_append, appended, appended, ih, List.cons_append, extend_cons]

theorem map_snd_appended (q : Sequence ε φ) (es : List (Entry ε φ)) :
    (q.appended es).map Prod.snd = es := by
  induction es generalizing q with
  | nil => rfl
  | cons e es ih => rw [appended, List.map_cons, ih]

@[simp] theorem length_appended (q : Sequence ε φ) (es : List (Entry ε φ)) :
    (q.appended es).length = es.length := by
  rw [← List.length_map Prod.snd, map_snd_appended]

section

variable [Embeds Cue ε]

theorem perform_eq (q : Sequence ε φ) (c : Call ε φ) : q.perform c = q.extend c.entries := by
  cases c <;> rfl

theorem foldl_perform (q : Sequence ε φ) (calls : List (Call ε φ)) :
    calls.foldl perform q = q.extend (calls.flatMap Call.entries) := by
  induction calls generalizing q with
  | nil => simp [extend]
  | cons c calls ih => rw [List.foldl_cons, ih, perform_eq, List.flatMap_cons, extend_append]

/-- The calls append the entries of the sequence that they put together. -/
theorem authored_eq (q : Sequence ε φ) (calls : List (Call ε φ)) :
    q.authored calls = q.appended (calls.flatMap Call.entries) := by
  induction calls generalizing q with
  | nil => rfl
  | cons c calls ih => rw [authored, ih, perform_eq, List.flatMap_cons, appended_append]

theorem entries_build (calls : List (Call ε φ)) :
    (build calls).entries = calls.flatMap Call.entries := by
  rw [build, foldl_perform]
  rfl

end

/-! ## The two clocks -/

/-- The clock of the sequence is at a beat that zero can be added to. -/
structure Ticks (q : Sequence ε φ) : Prop where
  upward : Beat.IsUpward q.relativeBeat
  sign : ¬Beat.IsMinusZero q.relativeBeat

theorem ticks_empty : Ticks ({} : Sequence ε φ) where
  upward := .inl Beat.isFinite_zero
  sign := show ¬Beat.IsMinusZero 0 by decide

/-- Appending an entry moves the clock of the sequence as getting to it moves that of a script. -/
theorem Ticks.relativeBeat_push {q : Sequence ε φ} (h : q.Ticks) {e : Entry ε φ}
    (hvalid : ∀ d, e = .rest d → Script.IsValidRest d) :
    (q.push e).relativeBeat = elapsed q.relativeBeat [e] := by
  cases e with
  | rest d =>
    rw [elapsed_singleton, Entry.rest?, if_pos (hvalid d rfl)]
    rfl
  | _ => exact h.upward.add_zero h.sign

theorem Ticks.push {q : Sequence ε φ} (h : q.Ticks) {e : Entry ε φ}
    (hvalid : ∀ d, e = .rest d → Script.IsValidRest d) : (q.push e).Ticks := by
  constructor
  · refine h.upward.add ?_
    cases e with
    | rest d => exact Script.zero_le_of_isValidRest (hvalid d rfl)
    | _ => exact Beat.le_refl (by decide)
  · rw [h.relativeBeat_push hvalid]
    exact not_isMinusZero_elapsed h.sign _

theorem relativeBeat_extend {q : Sequence ε φ} {es : List (Entry ε φ)} (h : q.Ticks)
    (hvalid : ∀ d, .rest d ∈ es → Script.IsValidRest d) :
    (q.extend es).relativeBeat = elapsed q.relativeBeat es := by
  induction es generalizing q with
  | nil => rfl
  | cons e es ih =>
    have he : ∀ d, e = .rest d → Script.IsValidRest d := fun d hd =>
      hvalid d (hd ▸ List.mem_cons_self)
    rw [extend_cons, ih (h.push he) fun d hd => hvalid d (List.mem_cons_of_mem _ hd),
      h.relativeBeat_push he, ← elapsed_cons]

end Sequence

/-! ## Working a sequence off -/

namespace Script

variable [Placed ε] [Subroutine φ ε] [Described φ]

/-- Where the entry is and the time of the script there. -/
def Pass.stamp (p : Pass ε φ) : Beat × Entry ε φ := (p.script.internal, p.entry)

/-- What a script that begins at `start` hands over for an entry that it gets to at a time. -/
def handed (start : Beat) : Beat × Entry ε φ → List ε
  | (time, .event e) => [Placed.moveTo (Placed.beat e + start + time) e]
  | _ => []

theorem Pass.events_eq_handed (p : Pass ε φ) :
    p.effects.events = handed p.script.start p.stamp := by
  cases he : p.entry with
  | event e => rw [Pass.events_of_event he, stamp, he, handed, due]
  | _ =>
    rw [Pass.events_eq_nil (by simp [he]), stamp, he]
    rfl

/-- A script whose queue begins with entries and whose time is the beat of the sequence that they
were appended to gets to them at the beats at which they were appended. -/
theorem Leads.works {s t : Script ε φ} {ps : List (Pass ε φ)} {q : Sequence ε φ}
    {es rest : List (Entry ε φ)} (h : Leads s ps t) (hqueue : s.queue.toList = es ++ rest)
    (hinternal : s.internal = q.relativeBeat) (hq : q.Ticks)
    (hvalid : ∀ d, .rest d ∈ es → IsValidRest d) :
    (ps.take es.length).map Pass.stamp = (q.appended es).take ps.length := by
  induction es generalizing s q ps rest with
  | nil => simp [Sequence.appended]
  | cons e es ih =>
    cases h with
    | refl => rfl
    | putBack => rfl
    | @pass _ left _ f now ps _ reach more =>
      rw [toList_of_reach reach, List.cons_append] at hqueue
      obtain ⟨rfl, hleft⟩ := List.cons.inj hqueue
      obtain ⟨queue, -, rfl⟩ := reach_eq_some_iff.1 reach
      obtain ⟨-, -, htime, hadded⟩ := (Pass.mk { s with queue, begun := true } now f).after_eq
      have hf : ∀ d, f = .rest d → IsValidRest d := fun d hd => hvalid d (hd ▸ List.mem_cons_self)
      rw [hleft, List.append_assoc] at hadded
      have hclock := htime.trans ((congrArg (elapsed · [f]) hinternal).trans
        (hq.relativeBeat_push hf).symm)
      have hmore := ih more hadded hclock (hq.push hf) fun d hd =>
        hvalid d (List.mem_cons_of_mem _ hd)
      rw [List.length_cons, List.take_succ_cons, List.map_cons, hmore, Sequence.appended,
        List.length_cons, List.take_succ_cons, ← hinternal]
      rfl

/-- The passes of a script go through what was appended to a sequence. -/
structure GoesThrough (s : Script ε φ) (authored : List (Beat × Entry ε φ))
    (ps : List (Pass ε φ)) : Prop where
  /-- They begin with the entries of the sequence, in order, and at each the time of the script is
  the beat of the sequence at which it was appended. -/
  stamps : (ps.take authored.length).map Pass.stamp = authored.take ps.length
  /-- Its events are handed over at their own beats plus the start plus these beats. -/
  events : (ps.take authored.length).map (·.effects.events) =
    (authored.take ps.length).map (handed s.start)

theorem Leads.goesThrough {s t : Script ε φ} {ps : List (Pass ε φ)} {es : List (Entry ε φ)}
    (h : Leads s ps t) (hqueue : s.queue.toList = es) (hinternal : s.internal = 0)
    (hvalid : ∀ d, .rest d ∈ es → IsValidRest d) :
    s.GoesThrough (({} : Sequence ε φ).appended es) ps := by
  have hstamps : (ps.take es.length).map Pass.stamp = _ :=
    h.works (q := {}) (hqueue.trans (List.append_nil es).symm) hinternal Sequence.ticks_empty hvalid
  rw [← Sequence.length_appended {} es] at hstamps
  refine ⟨hstamps, ?_⟩
  rw [← hstamps, List.map_map]
  refine List.map_congr_left fun p hp => ?_
  obtain ⟨before, later, rfl⟩ := List.append_of_mem (List.mem_of_mem_take hp)
  rw [Pass.events_eq_handed, h.time_at.1, Function.comp_apply]

variable [Embeds Cue ε]

/-- What drains do of a script that was new and was given the sequence that the calls put
together. -/
structure KeepsTime (s : Script ε φ) (calls : List (Sequence.Call ε φ)) (r : Series ε φ) :
    Prop where
  /-- The drains go through the sequence, also with a further one that need not be done. -/
  passes : ∀ now n, s.GoesThrough (({} : Sequence ε φ).authored calls)
    (r.passes ++ r.script.passes now n 0)
  /-- What they hand over first is the events of the sequence that they got to. -/
  events : r.effects.events =
    ((({} : Sequence ε φ).authored calls).take r.passes.length).flatMap (handed s.start) ++
      (r.passes.drop (Sequence.build calls).entries.length).flatMap (·.effects.events)
  /-- What they did not get to of it is still the head of the queue. -/
  left : ((({} : Sequence ε φ).authored calls).drop r.passes.length).map Prod.snd <+:
    r.script.queue.toList
  /-- A script that is through with all its entries, with no rests from subroutines among them, is
  at the beat of the sequence. -/
  ends : r.script.queue.toList = [] → (∀ p ∈ r.passes, ∀ d, .rest d ∉ p.added) →
    r.script.internal = (Sequence.build calls).relativeBeat

/-- However a sequence is put together of valid rests and whatever else, a script works it off by
the clock of the sequence. -/
theorem keepsTime_of_drainAll {calls : List (Sequence.Call ε φ)}
    (hvalid : ∀ d, .rest d ∈ (Sequence.build calls).entries → IsValidRest d) {s : Script ε φ}
    (hqueue : s.queue.toList = []) (hinternal : s.internal = 0) {fuel : Nat} {nows : List Beat}
    {r : Series ε φ}
    (h : (s.enqueue (Sequence.build calls).entries).drainAll fuel nows = some r) :
    s.KeepsTime calls r := by
  have hauthored : ({} : Sequence ε φ).authored calls =
      ({} : Sequence ε φ).appended (Sequence.build calls).entries := by
    rw [Sequence.authored_eq, Sequence.entries_build]
  have hgiven : (s.enqueue (Sequence.build calls).entries).queue.toList =
      (Sequence.build calls).entries := by
    rw [enqueue, Queue.toList_append, hqueue, List.nil_append]
  obtain ⟨hleads, hevents, -⟩ := leads_of_drainAll h
  refine ⟨fun now n => ?_, ?_, ?_, fun hdone hnone => ?_⟩
  · rw [hauthored]
    obtain ⟨t, hmore⟩ := exists_leads_passes now n 0 r.script
    have hgoes := (hleads.trans hmore).goesThrough hgiven hinternal hvalid
    exact ⟨hgoes.stamps, hgoes.events⟩
  · -- the passes up to the length of the sequence are its own
    have hgoes := (hleads.goesThrough hgiven hinternal hvalid).events
    rw [Sequence.length_appended] at hgoes
    conv_lhs => rw [hevents, ← List.take_append_drop (Sequence.build calls).entries.length r.passes]
    rw [List.flatMap_append, List.flatMap_def, hgoes, ← List.flatMap_def, hauthored]
    rfl
  · have hserved := hleads.queue
    rw [hgiven] at hserved
    have hleft := congrArg (List.drop r.passes.length) hserved
    rw [List.drop_append, ← List.length_map Pass.entry, List.drop_left] at hleft
    rw [List.map_drop, hauthored, Sequence.map_snd_appended, ← List.length_map Pass.entry]
    exact ⟨_, hleft⟩
  · have hserved := hleads.queue
    rw [hgiven, hdone, List.append_nil] at hserved
    have hrests : ∀ e ∈ r.passes.flatMap Pass.added, e.rest? = none := by
      intro e he
      obtain ⟨p, hp, he⟩ := List.mem_flatMap.1 he
      cases e with
      | rest d => exact absurd he (hnone p hp d)
      | _ => rfl
    calc r.script.internal
        = elapsed s.internal (r.passes.map Pass.entry) := hleads.time.2.2
      _ = elapsed (elapsed 0 (Sequence.build calls).entries) (r.passes.flatMap Pass.added) := by
          rw [hinternal, ← hserved, elapsed_append]
      _ = elapsed 0 (Sequence.build calls).entries := elapsed_of_no_rest hrests
      _ = (({} : Sequence ε φ).extend (Sequence.build calls).entries).relativeBeat :=
          (Sequence.relativeBeat_extend Sequence.ticks_empty hvalid).symm
      _ = (Sequence.build calls).relativeBeat := by
          rw [Sequence.entries_build, ← Sequence.foldl_perform, Sequence.build]

/-- A sequence with rests of all kinds, and a subroutine that rests. -/
def medley : List (Sequence.Call Playback.ShowEvent Phase) :=
  [.compose .pincer, .log "bridge", .rest (-0), .expand .outro,
    .extend [.rest 0.1, .cue (.bringOn "choir"), .rest 0.2], .event (.cue (.bringOn "organ")),
    .todo "verse", .push (.rest (1 / 0)), .event (.cue (.bringOn "bells")), .note "coda"]

/-- A sequence that stops the script. -/
def ditty : List (Sequence.Call Playback.ShowEvent Phase) :=
  [.rest 0.1, .compose .rain, .rest 0.2, .note "refrain", .stop]

/-- The drains of `medley` get to the entries of its subroutine. -/
theorem keepsTime_of_drainAll_medley :
    (∃ r, (({ start := 8, runahead := 2 } : Script Playback.ShowEvent Phase).enqueue
        (Sequence.build medley).entries).drainAll 30 [6, 30, 1 / 0] = some r ∧
      r.passes.length = 21 ∧ (Sequence.build medley).size = 16 ∧
      KeepsTime { start := 8, runahead := 2 } medley r) ∧
    ∃ r, (({ start := 0.3, runahead := 0 } : Script Playback.ShowEvent Phase).enqueue
        (Sequence.build ditty).entries).drainAll 20 [1, 2, 3, 4, 5] = some r ∧
      r.script.internal = 4.3 ∧ (Sequence.build ditty).relativeBeat = 4.3 ∧
      KeepsTime { start := 0.3, runahead := 0 } ditty r := by
  have hmedley : ∀ d, Entry.rest d ∈ (Sequence.build medley).entries → IsValidRest d := by
    intro d hd
    simp [medley, Sequence.entries_build, Sequence.Call.entries, Pattern.entries, Entry.cue] at hd
    rcases hd with rfl | rfl | rfl | rfl | rfl | rfl <;> decide
  have hditty : ∀ d, Entry.rest d ∈ (Sequence.build ditty).entries → IsValidRest d := by
    intro d hd
    simp [ditty, Sequence.entries_build, Sequence.Call.entries, Pattern.entries, Entry.cue] at hd
    rcases hd with rfl | rfl | rfl <;> decide
  have hrun : ((({ start := 8, runahead := 2 } : Script Playback.ShowEvent Phase).enqueue
      (Sequence.build medley).entries).drainAll 30 [6, 30, 1 / 0]).map (·.passes.length) =
        some 21 := by
    decide +kernel
  have hshort : ((({ start := 0.3, runahead := 0 } : Script Playback.ShowEvent Phase).enqueue
      (Sequence.build ditty).entries).drainAll 20 [1, 2, 3, 4, 5]).map (fun r =>
        (r.script.pending, r.script.internal)) = some (0, 4.3) := by
    decide +kernel
  obtain ⟨r, hr, hpasses⟩ := Option.map_eq_some_iff.1 hrun
  obtain ⟨r', hr', hend⟩ := Option.map_eq_some_iff.1 hshort
  exact ⟨⟨r, hr, hpasses, by decide +kernel, keepsTime_of_drainAll hmedley rfl rfl hr⟩, r', hr',
    congrArg Prod.snd hend, by decide +kernel, keepsTime_of_drainAll hditty rfl rfl hr'⟩

end Script

end Downbeat
