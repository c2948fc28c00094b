import Downbeat.Event
import Downbeat.Proofs.Script.Join
import Downbeat.Proofs.Timeline.Settling

/-!
# Cues and scripts are patient

A cue fires at its first visit that is not early, and a script works off at any visit what is
due by then, however often it was visited before. So the events of a show are patient
(`Event.patient`), as long as all scripts among them, those that other scripts bring on
included, have no limit and subroutines that do not look at the clock of the host
(`Event.Within`).
-/

set_option linter.unusedSectionVars false

namespace Downbeat

theorem Effects.events_eq_of_quiet {ε : Type} {fx fx' : Effects ε} (h : fx.quiet = fx'.quiet) :
    fx.events = fx'.events := (Effects.mk.inj h).1

theorem Effects.plans_eq_of_quiet {ε : Type} {fx fx' : Effects ε} (h : fx.quiet = fx'.quiet) :
    fx.plans = fx'.plans := by
  have hfirings : fx.firings = fx'.firings := (Effects.mk.inj h).2.1
  rw [plans, plans, hfirings]

namespace Event

variable {κ φ : Type}

/-- The event is a cue, or a script without a limit whose queue holds no other subroutines
than those in `P`, and only such events, to any depth. -/
inductive Within (P : φ → Prop) : Event κ φ → Prop
  | cue (c : Cue) : Within P (cue c)
  | script {x : Script (Event κ φ) φ} (limit : x.limit = none)
      (events : ∀ e, .event e ∈ x.queue.toList → Within P e)
      (subroutines : ∀ f, .expand f ∈ x.queue.toList → P f) : Within P (script x)

theorem within_script_iff {P : φ → Prop} {x : Script (Event κ φ) φ} :
    (script x).Within P ↔ x.limit = none ∧ x.Within (Within P) P := by
  constructor
  · rintro (_ | ⟨hlimit, hevents, hsubroutines⟩)
    refine ⟨hlimit, fun e he => ?_⟩
    cases e with
    | event e => exact hevents e he
    | expand f => exact hsubroutines f he
    | _ => trivial
  · rintro ⟨hlimit, hwithin⟩
    exact .script hlimit (fun e he => hwithin _ he) (fun f hf => hwithin _ hf)

variable [Placed κ] [Hosted κ (Event κ φ)] [Subroutine φ (Event κ φ)] [Described φ]

theorem Within.moveTo {P : φ → Prop} (b : Beat) (e : Event κ φ) (h : e.Within P) :
    (Placed.moveTo b e).Within P := by
  cases h with
  | cue c => exact .cue _
  | @script x hlimit hevents hsubroutines =>
    show (Event.script (Placed.moveTo b x)).Within P
    cases hbegun : x.begun with
    | true =>
      have hmove : Placed.moveTo b x = x := if_pos hbegun
      rw [hmove]
      exact .script hlimit hevents hsubroutines
    | false =>
      have hmove : Placed.moveTo b x = { x with start := b + x.runahead, restUntil := b } :=
        if_neg (by simp [hbegun])
      rw [hmove]
      exact .script hlimit hevents hsubroutines

/-! ## Visits -/

@[simp] theorem beat_cue (c : Cue) : Placed.beat (cue c : Event κ φ) = c.beat := rfl

@[simp] theorem beat_script (x : Script (Event κ φ) φ) :
    Placed.beat (script x) = Placed.beat x := rfl

@[simp] theorem isOver_cue (c : Cue) (started ended : Bool) :
    (⟨cue c, started, ended⟩ : Slot (Event κ φ)).isOver = ended := Bool.or_false ended

@[simp] theorem isOver_script (x : Script (Event κ φ) φ) (started ended : Bool) :
    (⟨script x, started, ended⟩ : Slot (Event κ φ)).isOver = (ended || x.stopped) := rfl

theorem run_cue (c : Cue) (started : Bool) (fuel : Nat) (now : Beat) :
    (⟨cue c, started, false⟩ : Slot (Event κ φ)).run fuel now = some
      (⟨cue c, true, decide (c.beat + c.width ≤ now)⟩,
        if started then {}
        else { firings := [c.firing now], notices := [.fired c.label c.beat now] }) := by
  have hbegin : (⟨cue c, started, false⟩ : Slot (Event κ φ)).begin fuel now =
      some (⟨cue c, true, false⟩, if started then {}
        else { firings := [c.firing now], notices := [.fired c.label c.beat now] }) := by
    cases started <;> rfl
  have hupdate : (⟨cue c, true, false⟩ : Slot (Event κ φ)).update fuel now =
      some (⟨cue c, true, false⟩, {}) := rfl
  rw [Slot.run, hbegin]
  by_cases hout : c.beat + c.width ≤ now
  · simp [hupdate, Slot.isOut, Hosted.width, hout, Slot.finish, Hosted.act, lift]
  · simp [hupdate, Slot.isOut, Hosted.width, hout]

/-- A cue is early, or starts if it has not started. -/
theorem visit_cue (c : Cue) (started : Bool) (fuel : Nat) (now : Beat) :
    (⟨cue c, started, false⟩ : Slot (Event κ φ)).visit fuel now = some
      (if !started && now < c.beat then (⟨cue c, started, false⟩, {})
      else (⟨cue c, true, decide (c.beat + c.width ≤ now)⟩,
        if started then {}
        else { firings := [c.firing now], notices := [.fired c.label c.beat now] })) := by
  rw [Slot.visit, run_cue]
  exact (apply_ite some _ _ _).symm

theorem run_script (x : Script (Event κ φ) φ) (started : Bool) (fuel : Nat) (now : Beat) :
    (⟨script x, started, false⟩ : Slot (Event κ φ)).run fuel now =
      (x.tick fuel now).map fun y =>
        (⟨script y.1, true, decide (Placed.beat y.1 + 1 / 0 ≤ now)⟩, y.2) := by
  have hbegin : (⟨script x, started, false⟩ : Slot (Event κ φ)).begin fuel now =
      some (⟨script x, true, false⟩, {}) := by
    cases started <;> rfl
  have hupdate : (⟨script x, true, false⟩ : Slot (Event κ φ)).update fuel now =
      (x.tick fuel now).map fun y => (⟨script y.1, true, false⟩, y.2) := by
    cases htick : x.tick fuel now <;> simp [Slot.update, Hosted.act, lift, htick]
  rw [Slot.run, hbegin]
  cases htick : x.tick fuel now with
  | none => simp [hupdate, htick]
  | some y =>
    by_cases hout : Placed.beat y.1 + 1 / 0 ≤ now
    · simp [hupdate, htick, Slot.isOut, Hosted.width, hout, Slot.finish, Hosted.act, lift]
    · simp [hupdate, htick, Slot.isOut, Hosted.width, hout]

theorem visit_script (x : Script (Event κ φ) φ) (started : Bool) (fuel : Nat) (now : Beat) :
    (⟨script x, started, false⟩ : Slot (Event κ φ)).visit fuel now =
      if !started && now < Placed.beat x then some (⟨script x, started, false⟩, {})
      else (x.tick fuel now).map fun y =>
        (⟨script y.1, true, decide (Placed.beat y.1 + 1 / 0 ≤ now)⟩, y.2) := by
  rw [Slot.visit, run_script]
  rfl

/-- What a visit to a script does : nothing if the script is early, and a tick otherwise. -/
theorem visit_script_cases {x : Script (Event κ φ) φ} {started : Bool} {fuel : Nat} {now : Beat}
    {s' : Slot (Event κ φ)} {fx : Effects (Event κ φ)}
    (h : (⟨script x, started, false⟩ : Slot (Event κ φ)).visit fuel now = some (s', fx)) :
    ((!started && now < Placed.beat x) = true ∧ s' = ⟨script x, started, false⟩ ∧ fx = {}) ∨
      (¬(!started && now < Placed.beat x) = true ∧ ∃ x', x.tick fuel now = some (x', fx) ∧
        s' = ⟨script x', true, decide (Placed.beat x' + 1 / 0 ≤ now)⟩) := by
  rw [visit_script] at h
  split at h
  · rename_i hearly
    cases h
    exact .inl ⟨hearly, rfl, rfl⟩
  · rename_i hearly
    obtain ⟨⟨x', fx'⟩, htick, hx'⟩ := Option.map_eq_some_iff.1 h
    obtain ⟨rfl, rfl⟩ := Prod.mk.inj hx'
    exact .inr ⟨hearly, x', htick, rfl⟩

theorem visit_script_of_tick {x x' : Script (Event κ φ) φ} {started : Bool} {fuel : Nat}
    {now : Beat} {fx : Effects (Event κ φ)} (hearly : ¬(!started && now < Placed.beat x) = true)
    (h : x.tick fuel now = some (x', fx)) :
    (⟨script x, started, false⟩ : Slot (Event κ φ)).visit fuel now =
      some (⟨script x', true, decide (Placed.beat x' + 1 / 0 ≤ now)⟩, fx) := by
  rw [visit_script, if_neg hearly, h, Option.map_some]

/-- An event that is not early is not early later on. -/
theorem not_early_of_le {started : Bool} {b now later : Beat} (hle : now ≤ later)
    (h : ¬(!started && now < b) = true) : ¬(!started && later < b) = true := by
  intro hlater
  simp only [Bool.and_eq_true, Bool.not_eq_true', decide_eq_true_eq] at h hlater
  exact h ⟨hlater.1, Beat.lt_of_le_of_lt hle hlater.2⟩

/-! ## Patience -/

variable {P : φ → Prop} {now later : Beat} {n m : Nat}

theorem visit_agree {s : Slot (Event κ φ)} {x y : Slot (Event κ φ) × Effects (Event κ φ)}
    (hs : s.Holds (Within P)) (h : s.visit n now = some x) (h' : s.visit m now = some y) :
    x = y := by
  obtain ⟨e, started, ended⟩ := s
  obtain ⟨hwithin, rfl⟩ : e.Within P ∧ ended = false := hs
  cases hwithin with
  | cue c =>
    rw [visit_cue] at h h'
    exact Option.some.inj (h.symm.trans h')
  | @script x _ _ _ =>
    rw [visit_script] at h h'
    split at h
    · rw [if_pos ‹_›] at h'
      exact Option.some.inj (h.symm.trans h')
    · rw [if_neg ‹_›] at h'
      obtain ⟨y, hy, rfl⟩ := Option.map_eq_some_iff.1 h
      obtain ⟨z, hz, rfl⟩ := Option.map_eq_some_iff.1 h'
      have hyz := (Script.tick_mono hy (Nat.le_max_left n m)).symm.trans
        (Script.tick_mono hz (Nat.le_max_right n m))
      rw [Option.some.inj hyz]

theorem within_of_visit (hP : Subroutine.Respects Context.SameScript (Within (κ := κ) P) P)
    {s s' : Slot (Event κ φ)} {fx : Effects (Event κ φ)} (hs : s.Holds (Within P))
    (h : s.visit n now = some (s', fx)) : s'.event.Within P ∧ ∀ e ∈ fx.events, e.Within P := by
  obtain ⟨e, started, ended⟩ := s
  obtain ⟨hwithin, rfl⟩ : e.Within P ∧ ended = false := hs
  cases hwithin with
  | cue c =>
    rw [visit_cue] at h
    split at h
    · cases h
      exact ⟨.cue c, List.forall_mem_nil _⟩
    · cases h
      refine ⟨.cue c, ?_⟩
      split <;> exact List.forall_mem_nil _
  | @script x hlimit hevents hsubroutines =>
    have hscript : (script x).Within P := .script hlimit hevents hsubroutines
    rcases visit_script_cases h with ⟨-, rfl, rfl⟩ | ⟨-, x', htick, rfl⟩
    · exact ⟨hscript, List.forall_mem_nil _⟩
    · obtain ⟨hx, hlimit', hfx⟩ :=
        (within_script_iff.1 hscript).2.of_tick hP Within.moveTo htick
      exact ⟨within_script_iff.2 ⟨hlimit'.trans hlimit, hx⟩, hfx⟩

/-- A script that is over at one beat has nothing to do at any other. -/
theorem idle_of_isOver {x : Script (Event κ φ) φ}
    (hidle : x.isReady now = false ∨ x.reach = none)
    (hover : Placed.beat x + 1 / 0 ≤ now ∨ x.stopped = true) (later : Beat) :
    x.isReady later = false ∨ x.reach = none := by
  rcases hover with hout | hstopped
  · rcases hidle with hidle | hidle
    · left
      by_contra hready
      have hready' : x.isReady later = true := eq_true_of_ne_false hready
      simp only [Script.isReady, Bool.and_eq_true, decide_eq_true_eq] at hready'
      have hnow : x.isReady now = true := by
        simp only [Script.isReady, Bool.and_eq_true, decide_eq_true_eq]
        exact ⟨hready'.1, Beat.le_of_add_inf_le hout hready'.2⟩
      rw [hnow] at hidle
      cases hidle
    · exact .inr hidle
  · exact .inl (Script.isReady_of_stopped hstopped later)

theorem visit_of_isOver (hP : Subroutine.Respects Context.SameScript (Within (κ := κ) P) P)
    {s s' : Slot (Event κ φ)} {fx : Effects (Event κ φ)} (hs : s.Holds (Within P))
    (hle : now ≤ later) (h : s.visit n now = some (s', fx)) (hover : s'.isOver = true) :
    ∃ k s'' fx'', s.visit k later = some (s'', fx'') ∧ s''.isOver = true ∧
      fx''.events = fx.events ∧ fx''.plans = fx.plans := by
  obtain ⟨e, started, ended⟩ := s
  obtain ⟨hwithin, rfl⟩ : e.Within P ∧ ended = false := hs
  cases hwithin with
  | cue c =>
    rw [visit_cue] at h
    split at h
    · cases h
      cases hover
    · rename_i hearly
      cases h
      have hout : c.beat + c.width ≤ now := by simpa using hover
      have hvisit := visit_cue (κ := κ) (φ := φ) c started 0 later
      rw [if_neg (not_early_of_le hle hearly)] at hvisit
      refine ⟨0, _, _, hvisit, ?_, ?_, ?_⟩
      · simpa using Beat.le_trans hout hle
      · cases started <;> rfl
      · cases started <;> rfl
  | @script x hlimit hevents hsubroutines =>
    have hscript : (script x).Within P := .script hlimit hevents hsubroutines
    rcases visit_script_cases h with ⟨-, rfl, rfl⟩ | ⟨hearly, x', htick, rfl⟩
    · -- the script has been stopped before its beat
      have hstopped : x.stopped = true := hover
      have hidle := Script.tick_of_idle (.inl (Script.isReady_of_stopped hstopped later)) 0
      by_cases hlater : (!started && later < Placed.beat x) = true
      · have hvisit := visit_script x started 1 later
        rw [if_pos hlater] at hvisit
        exact ⟨1, _, _, hvisit, hover, rfl, rfl⟩
      · exact ⟨1, _, _, visit_script_of_tick hlater hidle, by simp [hstopped], rfl, rfl⟩
    · have hover' : Placed.beat x' + 1 / 0 ≤ now ∨ x'.stopped = true := by simpa using hover
      have hidle :=
        Script.tick_of_idle (idle_of_isOver (Script.idle_of_tick htick) hover' later) 0
      obtain ⟨k, fx'', htick', hquiet⟩ :=
        Script.exists_tick_of_le hP hle (within_script_iff.1 hscript).2 hlimit htick hidle
      rw [Effects.append_empty] at hquiet
      refine ⟨k, _, _, visit_script_of_tick (not_early_of_le hle hearly) htick', ?_,
        Effects.events_eq_of_quiet hquiet, Effects.plans_eq_of_quiet hquiet⟩
      rcases hover' with hout | hstopped
      · simp [Beat.le_trans hout hle]
      · simp [hstopped]

theorem visit_onward (hP : Subroutine.Respects Context.SameScript (Within (κ := κ) P) P)
    {s s' s'' : Slot (Event κ φ)} {fx fx' : Effects (Event κ φ)} (hs : s.Holds (Within P))
    (hle : now ≤ later) (h : s.visit n now = some (s', fx)) (hover : s'.isOver = false)
    (h' : s'.visit m later = some (s'', fx')) :
    ∃ k fx'', s.visit k later = some (s'', fx'') ∧
      fx''.events = fx.events ++ fx'.events ∧ fx''.plans = fx.plans + fx'.plans := by
  obtain ⟨e, started, ended⟩ := s
  obtain ⟨hwithin, rfl⟩ : e.Within P ∧ ended = false := hs
  cases hwithin with
  | cue c =>
    rw [visit_cue] at h
    split at h
    · cases h
      exact ⟨m, fx', h', rfl, (zero_add _).symm⟩
    · rename_i hearly
      cases h
      rw [isOver_cue] at hover
      rw [hover, visit_cue] at h'
      have hvisit := visit_cue (κ := κ) (φ := φ) c started 0 later
      rw [if_neg (not_early_of_le hle hearly)] at hvisit
      cases h'
      refine ⟨0, _, hvisit, ?_, ?_⟩
      · cases started <;> rfl
      · cases started <;> rfl
  | @script x hlimit hevents hsubroutines =>
    have hscript : (script x).Within P := .script hlimit hevents hsubroutines
    rcases visit_script_cases h with ⟨-, rfl, rfl⟩ | ⟨hearly, x', htick, rfl⟩
    · exact ⟨m, fx', h', rfl, (zero_add _).symm⟩
    · obtain ⟨hout, -⟩ := Bool.or_eq_false_iff.1 hover
      rw [show decide (Placed.beat x' + 1 / 0 ≤ now) = false from hout] at h'
      obtain ⟨x'', htick', rfl⟩ : ∃ x'', x'.tick m later = some (x'', fx') ∧
          s'' = ⟨script x'', true, decide (Placed.beat x'' + 1 / 0 ≤ later)⟩ := by
        rw [visit_script, Bool.not_true, Bool.false_and, if_neg Bool.false_ne_true] at h'
        obtain ⟨y, hy, hs''⟩ := Option.map_eq_some_iff.1 h'
        obtain ⟨rfl, rfl⟩ := Prod.mk.inj hs''
        exact ⟨y.1, hy, rfl⟩
      obtain ⟨k, fx'', htick'', hquiet⟩ :=
        Script.exists_tick_of_le hP hle (within_script_iff.1 hscript).2 hlimit htick htick'
      refine ⟨k, fx'', visit_script_of_tick (not_early_of_le hle hearly) htick'',
        Effects.events_eq_of_quiet hquiet, ?_⟩
      rw [Effects.plans_eq_of_quiet hquiet, Effects.plans_append]

theorem live_of_retire {s s' : Slot (Event κ φ)} {fx : Effects (Event κ φ)}
    (hs : s.event.Within P) (h : s.retire n now = some (s', fx)) :
    s'.live = s.live ∧ fx.events = [] ∧ fx.firings = [] := by
  obtain ⟨e, started, ended⟩ := s
  unfold Slot.retire at h
  split at h
  · rename_i hgo
    obtain ⟨-, hdone⟩ := Bool.and_eq_true_iff.1 hgo
    cases hs with
    | cue c => cases hdone
    | @script x =>
      cases h
      have hstopped : x.stopped = true := hdone
      refine ⟨?_, rfl, rfl⟩
      simp [Slot.live, hstopped]
  · cases h
    exact ⟨rfl, rfl, rfl⟩

/-- Cues and scripts are patient. -/
theorem patient (hP : Subroutine.Respects Context.SameScript (Within (κ := κ) P) P) :
    Timeline.Patient (Within (κ := κ) P) where
  agree := visit_agree
  within := within_of_visit hP
  finished := visit_of_isOver hP
  onward := visit_onward hP
  retire := live_of_retire

end Event

end Downbeat
