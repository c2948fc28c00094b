import Downbeat.Proofs.Beat.Halfway
import Downbeat.Proofs.Beat.Upward
import Downbeat.Proofs.Playback.Ending
import Downbeat.Proofs.Timeline.Descent
import Downbeat.Proofs.Timeline.Punctual

/-!
# Getting to a beat

After a tick, what has started of the cues on the line is what is not early, and all of it has been
noted (`Timeline.noted_of_process`). So whatever a host did before, the cues on its line that are
not after the clock have been noted by the end of a tick (`Timeline.Yields.isKept`), and the others
wait.

A host that is told to go to a beat moves its clock on by the way that is left, and both the way and
the sum are rounded. If this is halfway, the clock falls short of the beat or gets beyond it, and a
cue at a beat that the clock falls short of goes on waiting (`Timeline.arrives_of_advanceTo`).
-/

set_option linter.unusedSectionVars false

namespace Downbeat

variable {κ φ : Type}

/-- What is known of a cue before it fires, as its note has it. -/
def Cue.plan (c : Cue) : String × Cue.Kind × Beat := (c.label, c.kind, c.beat)

/-! ## One slot -/

namespace Slot

/-- The plan of the cue in the slot, if it has the property `p`. -/
def planned (p : Cue → Bool) (s : Slot (Event κ φ)) : Multiset (String × Cue.Kind × Beat) :=
  ((s.event.cue?.filter p).toList.map Cue.plan : List _)

/-- The plan of the cue in the slot, if it has started. -/
def noted (s : Slot (Event κ φ)) : Multiset (String × Cue.Kind × Beat) :=
  s.planned fun _ => s.started

/-- The plan of the cue in the slot, if it is not early. -/
def due (now : Beat) (s : Slot (Event κ φ)) : Multiset (String × Cue.Kind × Beat) :=
  s.planned fun c => !decide (now < c.beat)

/-- A cue in the slot has not started early. -/
def IsTimely (now : Beat) (s : Slot (Event κ φ)) : Prop :=
  ∀ c, s.event.cue? = some c → s.started = true → ¬now < c.beat

theorem IsTimely.of_le {now later : Beat} {s : Slot (Event κ φ)} (h : s.IsTimely now)
    (hle : now ≤ later) : s.IsTimely later :=
  fun c hc hstarted hlt => h c hc hstarted (Beat.lt_of_le_of_lt hle hlt)

theorem planned_of_none {p : Cue → Bool} {s : Slot (Event κ φ)} (h : s.event.cue? = none) :
    s.planned p = 0 := by
  rw [planned, h]
  rfl

theorem planned_cue (p : Cue → Bool) (c : Cue) (started ended : Bool) :
    (⟨.cue c, started, ended⟩ : Slot (Event κ φ)).planned p = if p c then {c.plan} else 0 := by
  cases h : p c <;> simp [planned, Event.cue?, Option.filter, h]

variable [Placed κ] [Hosted κ (Event κ φ)] [Subroutine φ (Event κ φ)] [Described φ]
  {fuel : Nat} {now : Beat} {s s' : Slot (Event κ φ)} {fx : Effects (Event κ φ)}

/-- An event stays the cue that it is, and one that is no cue does not come to be one. -/
theorem cue?_of_act {m : Moment} {e e' : Event κ φ}
    (h : Hosted.act fuel m now e = some (e', fx)) : e'.cue? = e.cue? := by
  cases e with
  | cue c => rw [(Event.act_cue h).1]
  | script x => rcases Event.act_script h with ⟨-, rfl, -⟩ | ⟨-, x', rfl, -⟩ <;> rfl
  | guest g =>
    obtain ⟨g', rfl⟩ := Event.act_guest h
    rfl

theorem cue?_of_map {m : Moment}
    {g : Event κ φ × Effects (Event κ φ) → Slot (Event κ φ) × Effects (Event κ φ)}
    (hg : ∀ x, (g x).1.event = x.1) (h : (Hosted.act fuel m now s.event).map g = some (s', fx)) :
    s'.event.cue? = s.event.cue? := by
  obtain ⟨x, hx, hs⟩ := Option.map_eq_some_iff.1 h
  rw [← cue?_of_act hx, ← hg x, hs]

theorem cue?_of_begin (h : s.begin fuel now = some (s', fx)) :
    s'.event.cue? = s.event.cue? := by
  unfold Slot.begin at h
  split at h
  · cases h
    rfl
  · exact cue?_of_map (fun _ => rfl) h

theorem cue?_of_visit (h : s.visit fuel now = some (s', fx)) :
    s'.event.cue? = s.event.cue? := by
  unfold Slot.visit at h
  split at h
  · cases h
    rfl
  · simp only [Slot.run, Option.bind_eq_bind, Option.bind_eq_some_iff] at h
    obtain ⟨⟨s₁, fx₁⟩, hbegin, h⟩ := h
    rw [← cue?_of_begin hbegin]
    split at h
    · cases h
      rfl
    · obtain ⟨⟨s₂, fx₂⟩, hupdate, h⟩ := Option.bind_eq_some_iff.1 h
      rw [← cue?_of_map (fun _ => rfl) hupdate]
      split at h
      · cases h
        rfl
      · obtain ⟨⟨s₃, fx₃⟩, hfinish, h⟩ := Option.bind_eq_some_iff.1 h
        cases h
        exact cue?_of_map (fun _ => rfl) hfinish

theorem cue?_of_retire (h : s.retire fuel now = some (s', fx)) :
    s'.event.cue? = s.event.cue? := by
  unfold Slot.retire at h
  split at h
  · exact cue?_of_map (fun _ => rfl) h
  · cases h
    rfl

/-- By the end of its visit a cue has started if it is not early, and this has been noted. -/
theorem noted_of_visit (hended : s.ended = false) (htimely : s.IsTimely now)
    (h : s.visit fuel now = some (s', fx)) :
    s'.noted = s.due now ∧ s.due now ≤ s.noted + fx.plans ∧ s'.IsTimely now := by
  have hsame := cue?_of_visit h
  cases hcue : s.event.cue? with
  | none =>
    rw [hcue] at hsame
    have hnone : s'.noted = 0 ∧ s.due now = 0 := ⟨planned_of_none hsame, planned_of_none hcue⟩
    rw [hnone.1, hnone.2]
    exact ⟨rfl, zero_le, fun c hc => by rw [hsame] at hc; cases hc⟩
  | some c =>
    obtain ⟨e, started, ended⟩ := s
    obtain rfl : e = .cue c := by
      cases e <;> cases hcue
      rfl
    obtain rfl : ended = false := hended
    obtain ⟨notices, hvisit⟩ := visit_ofCue (κ := κ) (φ := φ) fuel now (c, started)
    obtain ⟨rfl, rfl⟩ := Prod.mk.inj (Option.some.inj (hvisit.symm.trans h))
    have hdue : (⟨.cue c, started, false⟩ : Slot (Event κ φ)).due now =
        if now < c.beat then 0 else {c.plan} := by
      rw [due, planned_cue]
      by_cases hearly : now < c.beat <;> simp [hearly]
    have hfx : Effects.plans ({ firings := calls now (c, started), notices } :
        Effects (Event κ φ)) = if isCalled now (c, started) && !started then {c.plan} else 0 := by
      rw [Effects.plans, calls]
      split <;> rfl
    rw [hdue, hfx, noted, called, planned_cue, noted, planned_cue]
    by_cases hearly : now < c.beat
    · obtain rfl : started = false := eq_false_of_ne_true fun hs => htimely c rfl hs hearly
      simp [isCalled, hearly, IsTimely]
    · refine ⟨by simp [isCalled, hearly], ?_, ?_⟩
      · cases started <;> simp [isCalled, hearly]
      · intro c' hc' _
        cases hc'
        exact hearly

theorem noted_of_retire (htimely : s.IsTimely now) (h : s.retire fuel now = some (s', fx)) :
    s'.noted = s.noted ∧ s'.IsTimely now := by
  have hsame := cue?_of_retire h
  have hstarted : s'.started = s.started := by
    unfold Slot.retire at h
    split at h
    · obtain ⟨⟨e, fx⟩, -, hs⟩ := Option.map_eq_some_iff.1 h
      cases hs
      rfl
    · cases h
      rfl
  rw [noted, noted, planned, planned, IsTimely, hsame, hstarted]
  exact ⟨rfl, htimely⟩

/-- A cue that is early is left alone. -/
theorem visit_of_early {c : Cue} (hcue : s.event = .cue c) (htimely : s.IsTimely now)
    (hearly : now < c.beat) : s.started = false ∧ s.visit fuel now = some (s, {}) ∧
      s.retire fuel now = some (s, {}) := by
  obtain ⟨e, started, ended⟩ := s
  obtain rfl : e = .cue c := hcue
  obtain rfl : started = false := eq_false_of_ne_true fun hs => htimely c rfl hs hearly
  refine ⟨rfl, ?_, rfl⟩
  rw [Slot.visit, if_pos (by simp [isEarly, hearly])]

end Slot

/-! ## One tick -/

namespace Timeline

open Slot

/-- The cues on a line. -/
def cues (line : List (Slot (Event κ φ))) : List Cue := line.filterMap (·.event.cue?)

theorem sum_planned (p : Cue → Bool) (line : List (Slot (Event κ φ))) :
    (line.map (planned p)).sum = (((cues line).filter p).map Cue.plan : List _) := by
  induction line with
  | nil => rfl
  | cons s line ih =>
    rw [List.map_cons, List.sum_cons, ih, cues, cues, List.filterMap_cons]
    cases hcue : s.event.cue? with
    | none => rw [planned_of_none hcue, zero_add]
    | some c =>
      rw [planned, hcue]
      cases hp : p c <;> simp [Option.filter, hp]

theorem isTimely_fresh (now : Beat) (es : List (Event κ φ)) :
    ∀ s ∈ fresh es, s.ended = false ∧ s.IsTimely now := by
  intro s hs
  obtain ⟨e, -, rfl⟩ := List.mem_map.1 hs
  exact ⟨rfl, fun _ _ hstarted => absurd hstarted Bool.false_ne_true⟩

theorem sum_noted_fresh (es : List (Event κ φ)) : ((fresh es).map noted).sum = 0 := by
  refine List.sum_eq_zero fun plans hplans => ?_
  obtain ⟨s, hs, rfl⟩ := List.mem_map.1 hplans
  obtain ⟨e, -, rfl⟩ := List.mem_map.1 hs
  cases h : e.cue? <;> simp [noted, planned, h]

section

variable {ε : Type} [Placed ε] [Hosted ε ε]

theorem mem_of_runLine {go : Slot ε → Option (Slot ε × Effects ε)} {line line' : List (Slot ε)}
    {fx : Effects ε} {s : Slot ε} (h : runLine go line = some (line', fx)) (hs : s ∈ line)
    (hgo : go s = some (s, {})) : s ∈ line' := by
  induction line generalizing line' fx with
  | nil => cases hs
  | cons x line ih =>
    obtain ⟨x', fx₁, rest, fx₂, hx, hrest, rfl, rfl⟩ := exists_of_runLine_cons h
    rcases List.mem_cons.1 hs with rfl | hs
    · obtain ⟨rfl, -⟩ := Prod.mk.inj (Option.some.inj (hgo.symm.trans hx))
      exact List.mem_cons_self
    · exact List.mem_cons_of_mem _ (ih hrest hs)

theorem mem_of_visitAll {fuel waves : Nat} {now : Beat} {line line' : List (Slot ε)}
    {fx : Effects ε} {s : Slot ε} (h : visitAll fuel now waves line = some (line', fx))
    (hs : s ∈ line) (hvisit : s.visit fuel now = some (s, {})) : s ∈ line' := by
  cases waves with
  | zero => cases h
  | succ waves =>
    obtain ⟨first, fx₁, hfirst, ⟨-, rfl, rfl⟩ | ⟨later, fx₂, -, rfl, rfl⟩⟩ :=
      exists_of_visitAll_succ h
    · exact mem_of_runLine hfirst hs hvisit
    · exact List.mem_append_left _ (mem_of_runLine hfirst hs hvisit)

end

variable [Placed κ] [Hosted κ (Event κ φ)] [Subroutine φ (Event κ φ)] [Described φ]
  {fuel : Nat} {now : Beat} {line line' : List (Slot (Event κ φ))} {fx : Effects (Event κ φ)}

theorem noted_of_runLine_visit (hline : ∀ s ∈ line, s.ended = false ∧ s.IsTimely now)
    (h : runLine (Slot.visit fuel now) line = some (line', fx)) :
    (line'.map noted).sum = (line.map (due now)).sum ∧
      (line.map (due now)).sum ≤ (line.map noted).sum + fx.plans ∧
      ∀ s ∈ line', s.IsTimely now := by
  induction line generalizing line' fx with
  | nil =>
    cases h
    exact ⟨rfl, zero_le, nofun⟩
  | cons s line ih =>
    obtain ⟨⟨hended, htimely⟩, hline⟩ := List.forall_mem_cons.1 hline
    obtain ⟨s', fx₁, rest, fx₂, hs, hrest, rfl, rfl⟩ := exists_of_runLine_cons h
    obtain ⟨hnoted, hle, htimely'⟩ := noted_of_visit hended htimely hs
    obtain ⟨hnoteds, hles, htimelys⟩ := ih hline hrest
    simp only [List.map_cons, List.sum_cons, Effects.plans_append]
    refine ⟨by rw [hnoted, hnoteds], ?_, List.forall_mem_cons.2 ⟨htimely', htimelys⟩⟩
    calc s.due now + (line.map (due now)).sum
        ≤ s.noted + fx₁.plans + ((line.map noted).sum + fx₂.plans) := add_le_add hle hles
      _ = s.noted + (line.map noted).sum + (fx₁.plans + fx₂.plans) := add_add_add_comm _ _ _ _

theorem noted_of_visitAll {waves : Nat} (hline : ∀ s ∈ line, s.ended = false ∧ s.IsTimely now)
    (h : visitAll fuel now waves line = some (line', fx)) :
    (line.map (due now)).sum ≤ (line'.map noted).sum ∧
      (line'.map noted).sum ≤ (line.map noted).sum + fx.plans ∧
      ∀ s ∈ line', s.IsTimely now := by
  induction waves generalizing line line' fx with
  | zero => cases h
  | succ waves ih =>
    obtain ⟨first, fx₁, hfirst, ⟨-, rfl, rfl⟩ | ⟨later, fx₂, hlater, rfl, rfl⟩⟩ :=
      exists_of_visitAll_succ h
    · obtain ⟨hnoted, hle, htimely⟩ := noted_of_runLine_visit hline hfirst
      rw [hnoted]
      exact ⟨le_rfl, hle, htimely⟩
    · obtain ⟨hnoted, hle, htimely⟩ := noted_of_runLine_visit hline hfirst
      obtain ⟨-, hle', htimely'⟩ := ih (isTimely_fresh now _) hlater
      rw [sum_noted_fresh, zero_add] at hle'
      rw [List.map_append, List.sum_append, hnoted, Effects.plans_append]
      refine ⟨le_self_add, ?_, List.forall_mem_append.2 ⟨htimely, htimely'⟩⟩
      rw [← add_assoc]
      exact add_le_add hle hle'

theorem noted_of_runLine_retire (hline : ∀ s ∈ line, s.IsTimely now)
    (h : runLine (Slot.retire fuel now) line = some (line', fx)) :
    (line'.map noted).sum = (line.map noted).sum ∧ ∀ s ∈ line', s.IsTimely now := by
  induction line generalizing line' fx with
  | nil =>
    cases h
    exact ⟨rfl, nofun⟩
  | cons s line ih =>
    obtain ⟨htimely, hline⟩ := List.forall_mem_cons.1 hline
    obtain ⟨s', fx₁, rest, fx₂, hs, hrest, rfl, rfl⟩ := exists_of_runLine_cons h
    obtain ⟨hnoted, htimely'⟩ := noted_of_retire htimely hs
    obtain ⟨hnoteds, htimelys⟩ := ih hline hrest
    rw [List.map_cons, List.sum_cons, List.map_cons, List.sum_cons, hnoted, hnoteds]
    exact ⟨rfl, List.forall_mem_cons.2 ⟨htimely', htimelys⟩⟩

/-- After a tick, what has started of the cues on the line is what is not early, and the tick has
noted what has started in it; the cues that are early have been left alone. -/
theorem noted_of_process {t t' : Timeline (Event κ φ)} {notices : List Notice}
    (hline : ∀ s ∈ t.slots, s.ended = false ∧ s.IsTimely t.clock.beat)
    (h : t.process fuel = some (t', notices)) :
    (∃ plans, (t.slots.map (due t.clock.beat)).sum ≤ plans ∧ (t'.slots.map noted).sum ≤ plans ∧
      plans + t.plans ≤ (t.slots.map noted).sum + t'.plans) ∧
    (∀ s ∈ t'.slots, s.IsTimely t.clock.beat) ∧
    ∀ s ∈ t.slots, ∀ c, s.event = .cue c → t.clock.beat < c.beat →
      s.started = false ∧ s ∈ t'.slots := by
  obtain ⟨seen, fx, swept, fx', hvisit, hretire, ht', -⟩ := exists_sweep_of_process h
  have hplans : t'.plans = (fx ++ fx').plans + t.plans := plans_of_log (by rw [ht'])
  obtain ⟨hdue, hnoted, htimely⟩ := noted_of_visitAll hline hvisit
  obtain ⟨hsame, htimely'⟩ := noted_of_runLine_retire htimely hretire
  have hslots : t'.slots = swept.filter (!·.isOver) ++ fresh fx'.events := by rw [ht']
  rw [hslots]
  refine ⟨⟨(seen.map noted).sum, hdue, ?_, ?_⟩, ?_, ?_⟩
  · rw [List.map_append, List.sum_append, sum_noted_fresh, add_zero, ← hsame]
    exact (List.filter_sublist.map _).sum_le_sum fun _ _ => zero_le
  · rw [hplans, Effects.plans_append, ← add_assoc, ← add_assoc]
    exact add_le_add_left (hnoted.trans le_self_add) _
  · exact List.forall_mem_append.2 ⟨fun s hs => htimely' s (List.mem_filter.1 hs).1,
      fun s hs => (isTimely_fresh _ _ s hs).2⟩
  · intro s hs c hcue hearly
    obtain ⟨hended, hs'⟩ := hline s hs
    obtain ⟨hstarted, hvisited, hretired⟩ := visit_of_early hcue hs' hearly
    have hmem := mem_of_runLine hretire (mem_of_visitAll hvisit hs hvisited) hretired
    have hstays : s.isOver = false := by
      rw [Slot.isOver, hended, hcue]
      rfl
    exact ⟨hstarted, List.mem_append_left _ (List.mem_filter.2 ⟨hmem, by rw [hstays]; rfl⟩)⟩

/-! ## Whole runs -/

/-- The time lines that a host can get to, beginning with an empty one, and what has been taken from
them on the way. -/
inductive Yields {ε : Type} [Placed ε] [Hosted ε ε] : List Firing → Timeline ε → Prop
  | empty : Yields [] {}
  | addAll {taken : List Firing} {t : Timeline ε} (es : List ε) :
      Yields taken t → Yields taken (t.addAll es)
  | tick {taken : List Firing} {t t' : Timeline ε} {fuel : Nat} {k : Tick}
      {notices : List Notice} :
      Yields taken t → t.tick fuel k = some (t', notices) → Yields taken t'
  | takeFired {taken : List Firing} {t : Timeline ε} :
      Yields taken t → Yields (taken ++ t.takeFired.1) t.takeFired.2

/-- What holds of a host at all times : the clock has not gone back, and what has started of the
cues on the line is not early, and has been noted. -/
structure IsKept (taken : List Firing) (t : Timeline (Event κ φ)) : Prop where
  forward : 0 ≤ t.clock.beat
  line : ∀ s ∈ t.slots, s.ended = false ∧ s.IsTimely t.clock.beat
  noted : (t.slots.map noted).sum ≤ (taken.map Firing.plan : List _) + t.plans

theorem le_clock {c : Clock} (hc : 0 ≤ c.beat) (k : Tick) : c.beat ≤ (k.clock c).beat := by
  cases k with
  | process => exact Beat.le_refl (Beat.le_iff.1 hc).2.1
  | _ => exact (Beat.isUpward_of_zero_le hc).le_add (Clock.zero_le_forward _)

variable {taken : List Firing} {t t' : Timeline (Event κ φ)} {notices : List Notice}

/-- A tick keeps this up, and by its end the cues that are not early have been noted. -/
theorem IsKept.tick {k : Tick} (ht : t.IsKept taken) (h : t.tick fuel k = some (t', notices)) :
    t'.IsKept taken ∧
      (t.slots.map (due t'.clock.beat)).sum ≤ (taken.map Firing.plan : List _) + t'.plans ∧
      ∀ s ∈ t.slots, ∀ c, s.event = .cue c → t'.clock.beat < c.beat →
        s.started = false ∧ s ∈ t'.slots := by
  have hle := le_clock ht.forward k
  rw [tick_eq] at h
  have hended : ∀ s ∈ t'.slots, s.ended = false := ended_of_tickAt (t := t) h
  have hclock : t'.clock = k.clock t.clock := clock_of_process h
  obtain ⟨⟨plans, hdue, hnoted, hplans⟩, htimely, hwaits⟩ :=
    noted_of_process (t := { t with clock := k.clock t.clock })
      (fun s hs => ⟨(ht.line s hs).1, (ht.line s hs).2.of_le hle⟩) h
  have hall : plans ≤ (taken.map Firing.plan : List _) + t'.plans := by
    refine le_of_add_le_add_right (a := t.plans) (hplans.trans ?_)
    calc (t.slots.map Slot.noted).sum + t'.plans
        ≤ (taken.map Firing.plan : List _) + t.plans + t'.plans := add_le_add_left ht.noted _
      _ = (taken.map Firing.plan : List _) + t'.plans + t.plans := add_right_comm _ _ _
  rw [hclock]
  refine ⟨⟨?_, fun s hs => ⟨hended s hs, ?_⟩, hnoted.trans hall⟩, hdue.trans hall, hwaits⟩
  · rw [hclock]
    exact Beat.le_trans ht.forward hle
  · rw [hclock]
    exact htimely s hs

theorem coe_map_plan_fired (t : Timeline (Event κ φ)) :
    ((t.fired.map Firing.plan : List _) : Multiset _) = t.plans := by
  rw [fired, List.map_reverse]
  exact Multiset.coe_eq_coe.2 (List.reverse_perm _)

theorem Yields.isKept (h : Yields taken t) : t.IsKept taken := by
  induction h with
  | empty => exact ⟨Beat.le_refl (by rfl), nofun, zero_le⟩
  | addAll es _ ih =>
    refine ⟨ih.forward, ?_, ?_⟩
    · rw [Timeline.addAll, join_eq]
      exact List.forall_mem_append.2 ⟨ih.line, isTimely_fresh _ es⟩
    · rw [Timeline.addAll, join_eq, List.map_append, List.sum_append, sum_noted_fresh, add_zero]
      exact ih.noted
  | tick _ h ih => exact (ih.tick h).1
  | @takeFired taken t _ ih =>
    refine ⟨ih.forward, ih.line, ih.noted.trans_eq ?_⟩
    rw [List.map_append, ← Multiset.coe_add, Timeline.takeFired, coe_map_plan_fired]
    exact (add_zero _).symm

/-! ## Going to a beat -/

open Beat in
/-- What comes of going to the beat `b`. -/
structure Arrives (b : Beat) (taken : List Firing) (t t' : Timeline (Event κ φ)) : Prop where
  /-- The clock is at the beat unless it is halfway. -/
  meets : (t'.clock.beat == b) = true ↔ ∀ n, ¬IsHalfway (value t.clock.beat) (value b) n
  /-- The clock falls short of the beat if it is halfway behind an even number of units. -/
  reaches : b ≤ t'.clock.beat ↔ ∀ n, IsHalfway (value t.clock.beat) (value b) n → n % 2 = 1
  /-- Halfway, the clock misses the beat by one unit of its last place. -/
  misses : ∀ n, IsHalfway (value t.clock.beat) (value b) n → place t'.clock.beat =
    inRange (value b + (2 * (n % 2 : ℤ) - 1) * 2 ^ grid (value b))
  /-- The cues that are not after the clock have been noted, each for itself. -/
  noted : ∀ now, now ≤ t'.clock.beat → (((cues t.slots).filter (·.beat ≤ now)).map Cue.plan).Subperm
    ((taken ++ t'.fired).map Firing.plan)
  /-- The cues that are after the clock wait. -/
  waits : ∀ s ∈ t.slots, ∀ c, s.event = .cue c → t'.clock.beat < c.beat →
    s.started = false ∧ s ∈ t'.slots

/-- A host that is told to go to a beat which is not before its clock gets there unless it is
halfway, and the cues on its line up to where it gets have been noted by then. -/
theorem arrives_of_advanceTo (ht : Yields taken t) {b : Beat} (hb : b.isFinite = true)
    (hle : t.clock.beat ≤ b) (h : t.advanceTo fuel b = some (t', notices)) :
    Arrives b taken t t' := by
  have hkept := ht.isKept
  have hbeat : t'.clock.beat = t.clock.beat + Clock.forward (b - t.clock.beat) :=
    congrArg Clock.beat (clock_of_process h)
  obtain ⟨-, hdue, hwaits⟩ := hkept.tick (k := .advanceTo b) h
  refine ⟨?_, ?_, ?_, ?_, hwaits⟩
  · rw [hbeat]
    exact Beat.add_forward_sub_eq_iff hkept.forward hb hle
  · rw [hbeat]
    exact Beat.le_add_forward_sub_iff hkept.forward hb hle
  · rw [hbeat]
    exact fun n hn => Beat.place_of_isHalfway hkept.forward hb hle hn
  · intro now hnow
    have hearly : ∀ c : Cue, c.beat ≤ now → (!decide (t'.clock.beat < c.beat)) = true := by
      intro c hc
      have hclock := (Beat.le_iff.1 (Beat.le_trans hc hnow)).2.2
      simpa using fun hlt => (Beat.lt_iff.1 hlt).2.2.not_ge hclock
    have hsub : ((cues t.slots).filter (·.beat ≤ now)).Sublist
        ((cues t.slots).filter fun c => !decide (t'.clock.beat < c.beat)) :=
      List.monotone_filter_right _ fun c hc => hearly c (of_decide_eq_true hc)
    rw [← Multiset.coe_le, List.map_append, ← Multiset.coe_add, coe_map_plan_fired]
    refine (Multiset.coe_le.2 (hsub.map _).subperm).trans ?_
    rw [← sum_planned]
    exact hdue

/-- A host with two cues. -/
def landing : Timeline Playback.ShowEvent :=
  ({} : Timeline Playback.ShowEvent).addAll
    [.cue { Cue.light "out" "blue" with beat := 0.1 },
      .cue { Cue.playStem "in" "drums" with beat := 0.9 }]

theorem arrives_of_advanceTo_landing : ∃ t t' notices notices',
    landing.advanceTo 20 0.2 = some (t, notices) ∧
    t.takeFired.2.advanceTo 20 0.9 = some (t', notices') ∧
    Arrives 0.9 t.fired t.takeFired.2 t' := by
  have hrun : ((landing.advanceTo 20 0.2).bind fun r =>
      r.1.takeFired.2.advanceTo 20 0.9).isSome := by decide +kernel
  obtain ⟨⟨t', notices'⟩, hr⟩ := Option.isSome_iff_exists.1 hrun
  obtain ⟨⟨t, notices⟩, ht, ht'⟩ := Option.bind_eq_some_iff.1 hr
  have hyields : Yields t.fired t.takeFired.2 :=
    .takeFired (.tick (k := .advanceTo 0.2) (.addAll _ .empty) ht)
  have hle : t.takeFired.2.clock.beat ≤ 0.9 := by
    show t.clock.beat ≤ 0.9
    rw [clock_of_process ht]
    decide +kernel
  exact ⟨t, t', notices, notices', ht, ht', arrives_of_advanceTo hyields (by decide) hle ht'⟩

/-- From beat 0.2 the clock falls short of beat 0.9 by one unit of its last place, and the cue there
does not fire. -/
theorem falls_short_of_beat : ∃ t t' notices notices',
    landing.advanceTo 20 0.2 = some (t, notices) ∧ t.advanceTo 20 0.9 = some (t', notices') ∧
    Yields [] t ∧ t.clock.beat ≤ 0.9 ∧ t'.clock.beat = 0.8999999999999999 ∧ t'.clock.beat < 0.9 ∧
    t.slots.map (Placed.beat ·.event) = [0.9] ∧ t'.slots.map (·.started) = [false] ∧
    t'.fired.map (·.scheduled) = [0.1] := by
  have hrun : ((landing.advanceTo 20 0.2).bind fun r => (r.1.advanceTo 20 0.9).map fun r' =>
      (r.1.clock.beat, r'.1.clock.beat, r.1.slots.map (Placed.beat ·.event),
        r'.1.slots.map (·.started), r'.1.fired.map (·.scheduled))) =
      some (0.2, 0.8999999999999999, [0.9], [false], [0.1]) := by decide +kernel
  obtain ⟨⟨t, notices⟩, ht, hr⟩ := Option.bind_eq_some_iff.1 hrun
  obtain ⟨⟨t', notices'⟩, ht', hall⟩ := Option.map_eq_some_iff.1 hr
  simp only [Prod.mk.injEq] at hall
  obtain ⟨hbeat, hbeat', hslots, hstarted, hfired⟩ := hall
  have hyields : Yields [] t := .tick (k := .advanceTo 0.2) (.addAll _ .empty) ht
  refine ⟨t, t', notices, notices', ht, ht', hyields, ?_, hbeat', ?_, hslots, hstarted, hfired⟩
  · rw [hbeat]
    decide
  · rw [hbeat']
    decide

end Timeline

end Downbeat
