import Downbeat.Proofs.Script.Steady
import Downbeat.Proofs.Timeline.Granularity
import Downbeat.Proofs.Timeline.Separation

/-!
# Cues fire on time

A script that brings on cues for no negative beats hands them over before they are due, however
seldom the host ticks and however far the script works ahead, so each of them fires at the first
tick that is not before it (`Cue.onTime`). A host that runs the script for some owner has then noted
for this owner what the cues of the script ask for, and nothing else
(`Chronicle.perm_onTime_of_run`).

Without the others there is the slot of the script on the line, and behind it those of its cues
(`Slot.ofCue`). The cues that have not started are those for which no tick has come, and the script
has nothing left to do at the ticks so far (`Timeline.Attended`); each tick keeps this up
(`Timeline.Attended.process`).
-/

set_option linter.unusedSectionVars false

namespace Downbeat

variable {α κ φ : Type}

/-- The beats at which a host ticks. -/
def Deed.beats {ε : Type} : Clock → List (Deed α ε) → List Beat
  | _, [] => []
  | c, .add .. :: deeds => beats c deeds
  | c, .tick _ k :: deeds => (k.clock c).beat :: beats (k.clock c) deeds

theorem Deed.beats_filter {ε : Type} (p : α → Bool) (c : Clock) (deeds : List (Deed α ε)) :
    beats c (deeds.filter (isOf p)) = beats c deeds := by
  induction deeds generalizing c with
  | nil => rfl
  | cons d deeds ih =>
    cases d with
    | add owner e =>
      cases hp : p owner with
      | true =>
        rw [List.filter_cons_of_pos (show (Deed.add owner e).isOf p = true from hp)]
        exact ih c
      | false =>
        rw [List.filter_cons_of_neg (by simp [isOf, hp])]
        exact ih c
    | tick fuel k =>
      rw [List.filter_cons_of_pos rfl]
      exact congrArg ((k.clock c).beat :: ·) (ih _)

/-! ## Cues and ticks -/

namespace Cue

/-- What is noted of the cue if it fires at the first of the beats that is not before it. -/
def onTime (nows : List Beat) (c : Cue) : Option Firing :=
  (nows.find? (c.beat ≤ ·)).map c.firing

theorem onTime_append (past : List Beat) (now : Beat) (c : Cue) :
    c.onTime (past ++ [now]) =
      (c.onTime past).or (if c.beat ≤ now then some (c.firing now) else none) := by
  rw [onTime, onTime, List.find?_append]
  by_cases h : c.beat ≤ now <;> cases past.find? (c.beat ≤ ·) <;> simp [h]

theorem onTime_eq_none_iff {nows : List Beat} {c : Cue} :
    c.onTime nows = none ↔ ∀ now ∈ nows, ¬c.beat ≤ now := by
  simp [onTime]

/-- The cues that no beat has come for. -/
def awaiting (past : List Beat) (cues : List Cue) : List Cue :=
  cues.filter fun c => (c.onTime past).isNone

/-- What fires at a further beat is what was waiting for it. -/
theorem filterMap_onTime_append (past : List Beat) (now : Beat) (cues : List Cue) :
    (cues.filterMap (onTime (past ++ [now]))).Perm
      (((awaiting past cues).filter (·.beat ≤ now)).map (·.firing now) ++
        cues.filterMap (onTime past)) := by
  induction cues with
  | nil => exact .nil
  | cons c cues ih =>
    rw [awaiting] at ih ⊢
    cases h : c.onTime past with
    | some f =>
      have hlater : c.onTime (past ++ [now]) = some f := by rw [onTime_append, h, Option.some_or]
      rw [List.filterMap_cons_some hlater, List.filterMap_cons_some h,
        List.filter_cons_of_neg (by simp [h])]
      exact (ih.cons f).trans List.perm_middle.symm
    | none =>
      have hlater : c.onTime (past ++ [now]) =
          if c.beat ≤ now then some (c.firing now) else none := by
        rw [onTime_append, h, Option.none_or]
      rw [List.filterMap_cons_none h, List.filter_cons_of_pos (by simp [h])]
      by_cases hnow : c.beat ≤ now
      · rw [if_pos hnow] at hlater
        rw [List.filterMap_cons_some hlater, List.filter_cons_of_pos (by simpa using hnow)]
        exact ih.cons _
      · rw [if_neg hnow] at hlater
        rw [List.filterMap_cons_none hlater, List.filter_cons_of_neg (by simpa using hnow)]
        exact ih

theorem awaiting_append (past : List Beat) (now : Beat) (cues : List Cue) :
    awaiting (past ++ [now]) cues = (awaiting past cues).filter (¬·.beat ≤ now) := by
  rw [awaiting, awaiting, List.filter_filter]
  refine List.filter_congr fun c _ => ?_
  rw [onTime_append]
  by_cases h : c.beat ≤ now <;> cases c.onTime past <;> simp [h]

end Cue

/-! ## The slots of cues -/

namespace Slot

/-- The slot of a cue that has started or not. -/
def ofCue (x : Cue × Bool) : Slot (Event κ φ) := ⟨.cue x.1, x.2, false⟩

/-- The cue has started by the end of a tick at `now`. -/
def isCalled (now : Beat) (x : Cue × Bool) : Bool := x.2 || !decide (now < x.1.beat)

/-- The slot of a cue at the end of a tick. -/
def called (now : Beat) (x : Cue × Bool) : Slot (Event κ φ) :=
  ⟨.cue x.1, isCalled now x, isCalled now x && decide (x.1.beat + x.1.width ≤ now)⟩

/-- What fires of a cue in a tick. -/
def calls (now : Beat) (x : Cue × Bool) : List Firing :=
  if isCalled now x && !x.2 then [x.1.firing now] else []

/-- The cues that have not started. -/
def waiting (xs : List (Cue × Bool)) : List Cue := (xs.filter (!·.2)).map (·.1)

/-- The cues that are on the line after a tick. -/
def stay (now : Beat) (xs : List (Cue × Bool)) : List (Cue × Bool) :=
  (xs.filter fun x => !(isCalled now x && decide (x.1.beat + x.1.width ≤ now))).map fun x =>
    (x.1, isCalled now x)

theorem waiting_append (xs ys : List (Cue × Bool)) :
    waiting (xs ++ ys) = waiting xs ++ waiting ys := by
  simp [waiting]

theorem waiting_new (cues : List Cue) : waiting (cues.map (·, false)) = cues := by
  simp [waiting, List.filter_map, Function.comp_def]

theorem waiting_stay (now : Beat) (xs : List (Cue × Bool)) :
    waiting (stay now xs) = (waiting xs).filter (now < ·.beat) := by
  rw [waiting, stay, List.filter_map, List.map_map, List.filter_filter, waiting, List.filter_map,
    List.filter_filter]
  refine congrArg (List.map _) (List.filter_congr fun x _ => ?_)
  rw [Function.comp_apply, Function.comp_apply, isCalled]
  cases x.2 <;> cases decide (now < x.1.beat) <;> rfl

theorem flatMap_calls (now : Beat) (xs : List (Cue × Bool)) :
    xs.flatMap (calls now) =
      ((waiting xs).filter (¬now < ·.beat)).map (·.firing now) := by
  induction xs with
  | nil => rfl
  | cons x xs ih =>
    obtain ⟨c, started⟩ := x
    rw [List.flatMap_cons, ih]
    cases started with
    | true => simp [waiting, calls, isCalled]
    | false => by_cases hearly : now < c.beat <;> simp [waiting, calls, isCalled, hearly]

theorem waiting_of_beats {now : Beat} {xs : List (Cue × Bool)} (hnow : now.isNaN = false)
    (h : ∀ c ∈ waiting xs, c.beat.isNaN = false) :
    waiting (stay now xs) = (waiting xs).filter (¬·.beat ≤ now) ∧
      xs.flatMap (calls now) = ((waiting xs).filter (·.beat ≤ now)).map (·.firing now) := by
  have hnot : ∀ c ∈ waiting xs, ¬c.beat ≤ now ↔ now < c.beat :=
    fun c hc => Beat.not_le_iff (h c hc) hnow
  rw [waiting_stay, flatMap_calls]
  constructor
  · refine List.filter_congr fun c hc => ?_
    simp [hnot c hc]
  · congr 1
    refine List.filter_congr fun c hc => ?_
    simp [← hnot c hc]

variable [Placed κ] [Hosted κ (Event κ φ)] [Subroutine φ (Event κ φ)] [Described φ]

theorem filter_called (now : Beat) (xs : List (Cue × Bool)) :
    (xs.map (called now) : List (Slot (Event κ φ))).filter (!·.isOver) =
      (stay now xs).map ofCue := by
  rw [List.filter_map, stay, List.map_map]
  have hkeep : ((fun s : Slot (Event κ φ) => !s.isOver) ∘ called now) =
      fun x => !(isCalled now x && decide (x.1.beat + x.1.width ≤ now)) := by
    funext x
    rw [Function.comp_apply, called, Event.isOver_cue]
  rw [hkeep]
  refine List.map_congr_left fun x hx => ?_
  obtain ⟨-, hx⟩ := List.mem_filter.1 hx
  rw [Function.comp_apply, ofCue, called]
  congr 1
  simpa only [Bool.not_eq_true'] using hx

theorem visit_ofCue (fuel : Nat) (now : Beat) (x : Cue × Bool) :
    ∃ notices, (ofCue x : Slot (Event κ φ)).visit fuel now =
      some (called now x, { firings := calls now x, notices }) := by
  obtain ⟨c, started⟩ := x
  rw [ofCue, Event.visit_cue]
  cases started with
  | true => exact ⟨[], by simp [called, calls, isCalled]⟩
  | false =>
    by_cases hearly : now < c.beat
    · exact ⟨[], by simp [called, calls, isCalled, hearly]⟩
    · exact ⟨[.fired c.label c.beat now], by simp [called, calls, isCalled, hearly]⟩

theorem retire_called (fuel : Nat) (now : Beat) (x : Cue × Bool) :
    (called now x : Slot (Event κ φ)).retire fuel now = some (called now x, {}) := by
  have hdone : Hosted.isDone (Event κ φ) (called now x : Slot (Event κ φ)).event = false := rfl
  rw [retire, hdone, Bool.and_false, if_neg Bool.false_ne_true]

end Slot

namespace Timeline

open Slot

section

variable {ε : Type} [Placed ε] [Hosted ε ε]

theorem exists_of_runLine_append {go : Slot ε → Option (Slot ε × Effects ε)}
    {line line' : List (Slot ε)} {result : List (Slot ε)} {fx : Effects ε}
    (h : runLine go (line ++ line') = some (result, fx)) :
    ∃ l fx₁ l' fx₂, runLine go line = some (l, fx₁) ∧ runLine go line' = some (l', fx₂) ∧
      result = l ++ l' ∧ fx = fx₁ ++ fx₂ := by
  induction line generalizing result fx with
  | nil => exact ⟨[], {}, result, fx, rfl, h, rfl, rfl⟩
  | cons s line ih =>
    obtain ⟨s', fx₁, rest, fx₂, hs, hrest, rfl, rfl⟩ := exists_of_runLine_cons h
    obtain ⟨l, fx₃, l', fx₄, hl, hl', rfl, rfl⟩ := ih hrest
    refine ⟨s' :: l, fx₁ ++ fx₃, l', fx₄, ?_, hl', rfl, (Effects.append_assoc _ _ _).symm⟩
    simp [runLine, hs, hl]

end

variable [Placed κ] [Hosted κ (Event κ φ)] [Subroutine φ (Event κ φ)] [Described φ]

/-! ## A tick with cues on the line -/

theorem runLine_visit_ofCue (fuel : Nat) (now : Beat) (xs : List (Cue × Bool)) :
    ∃ notices, runLine (Slot.visit fuel now) (xs.map ofCue : List (Slot (Event κ φ))) =
      some (xs.map (called now), { firings := xs.flatMap (calls now), notices }) := by
  induction xs with
  | nil => exact ⟨[], rfl⟩
  | cons x xs ih =>
    obtain ⟨ns, hx⟩ := visit_ofCue (κ := κ) (φ := φ) fuel now x
    obtain ⟨ms, hxs⟩ := ih
    refine ⟨ns ++ ms, ?_⟩
    rw [List.map_cons, runLine, hx, hxs]
    rfl

theorem runLine_retire_called (fuel : Nat) (now : Beat) (xs : List (Cue × Bool)) :
    runLine (Slot.retire fuel now) (xs.map (called now) : List (Slot (Event κ φ))) =
      some (xs.map (called now), {}) := by
  induction xs with
  | nil => rfl
  | cons x xs ih =>
    rw [List.map_cons, runLine, retire_called, ih]
    rfl

/-- What a host does with a line of others and cues, if the others bring on cues only. -/
theorem exists_of_visitAll_cues {fuel waves : Nat} {now : Beat} {host : List (Slot (Event κ φ))}
    {xs : List (Cue × Bool)} {line : List (Slot (Event κ φ))} {fx : Effects (Event κ φ)}
    (h : visitAll fuel now waves (host ++ xs.map ofCue) = some (line, fx)) :
    ∃ host' fx₁, runLine (Slot.visit fuel now) host = some (host', fx₁) ∧
      ∀ cues : List Cue, fx₁.events = cues.map .cue →
        line = host' ++ (xs ++ cues.map (·, false)).map (called now) ∧
        fx.firings = fx₁.firings ++ (xs ++ cues.map (·, false)).flatMap (calls now) := by
  cases waves with
  | zero => cases h
  | succ waves =>
    obtain ⟨first, fx₀, hfirst, hlater⟩ := exists_of_visitAll_succ h
    obtain ⟨host', fx₁, xs', fx₂, hhost, hxs, rfl, rfl⟩ := exists_of_runLine_append hfirst
    obtain ⟨ns, hxs'⟩ := runLine_visit_ofCue (κ := κ) (φ := φ) fuel now xs
    obtain ⟨rfl, rfl⟩ := Prod.mk.inj (Option.some.inj (hxs.symm.trans hxs'))
    refine ⟨host', fx₁, hhost, fun cues hcues => ?_⟩
    rw [Effects.events_append, hcues, List.append_nil] at hlater
    rcases hlater with ⟨hnone, rfl, rfl⟩ | ⟨later, fx₃, hlater, rfl, rfl⟩
    · rw [List.map_eq_nil_iff.1 hnone]
      simp
    · -- what was brought on makes one more wave, and brings on nothing
      have hfresh : fresh (cues.map .cue) =
          ((cues.map (·, false)).map ofCue : List (Slot (Event κ φ))) := by
        simp [fresh, ofCue, Function.comp_def]
      rw [hfresh] at hlater
      cases waves with
      | zero => cases hlater
      | succ waves =>
        obtain ⟨ms, hnew⟩ := runLine_visit_ofCue (κ := κ) (φ := φ) fuel now (cues.map (·, false))
        rw [visitAll, hnew] at hlater
        obtain ⟨rfl, rfl⟩ : (cues.map (·, false)).map (called now) = later ∧ _ = fx₃ := by
          simpa using hlater
        simp

/-- What a tick leaves of a line of others and cues, and what it notes, if the others bring on cues
only, and note nothing. -/
theorem exists_of_process_cues {fuel : Nat} {t t' : Timeline (Event κ φ)} {notices : List Notice}
    {host : List (Slot (Event κ φ))} {xs : List (Cue × Bool)}
    (hslots : t.slots = host ++ xs.map ofCue) (h : t.process fuel = some (t', notices)) :
    ∃ host' fx, runLine (Slot.visit fuel t.clock.beat) host = some (host', fx) ∧
      ∀ {cues : List Cue} {host'' : List (Slot (Event κ φ))}, fx.events = cues.map .cue →
        fx.firings = [] → runLine (Slot.retire fuel t.clock.beat) host' = some (host'', {}) →
        t'.slots = host''.filter (!·.isOver) ++
            (stay t.clock.beat (xs ++ cues.map (·, false))).map ofCue ∧
          t'.log = ((xs ++ cues.map (·, false)).flatMap (calls t.clock.beat)).reverse ++ t.log ∧
          t'.clock = t.clock := by
  obtain ⟨line, fx, line', fx', hvisit, hretire, rfl, -⟩ := exists_sweep_of_process h
  rw [hslots] at hvisit
  obtain ⟨host', fx₁, hhostVisit, hline⟩ := exists_of_visitAll_cues hvisit
  refine ⟨host', fx₁, hhostVisit, fun hcues hfirings hhostRetire => ?_⟩
  obtain ⟨rfl, hfx⟩ := hline _ hcues
  obtain ⟨_, _, _, _, hl, hl', rfl, rfl⟩ := exists_of_runLine_append hretire
  obtain ⟨rfl, rfl⟩ := Prod.mk.inj (Option.some.inj (hhostRetire.symm.trans hl))
  obtain ⟨rfl, rfl⟩ := Prod.mk.inj (Option.some.inj
    ((runLine_retire_called fuel t.clock.beat _).symm.trans hl'))
  refine ⟨?_, ?_, rfl⟩
  · rw [Effects.append_empty, fresh_nil, List.append_nil, List.filter_append, filter_called]
  · rw [Effects.append_empty, Effects.append_empty, hfx, hfirings, List.nil_append]

/-! ## The slot of a script -/

/-- The slot of a script, which may be gone if the script has nothing to do any more. -/
def Hosts (x : Script (Event κ φ) φ) (host : List (Slot (Event κ φ))) : Prop :=
  (∃ started, host = [⟨.script x, started, false⟩]) ∨
    host = [] ∧ ∀ later, x.isReady later = false ∨ x.reach = none

theorem retire_script (x : Script (Event κ φ) φ) (started ended : Bool) (fuel : Nat) (now : Beat) :
    (⟨.script x, started, ended⟩ : Slot (Event κ φ)).retire fuel now =
      some (⟨.script x, started, ended || (started && x.stopped)⟩, {}) := by
  have hdone : Hosted.isDone (Event κ φ) (.script x : Event κ φ) = x.stopped := rfl
  rw [Slot.retire, hdone]
  cases started <;> cases ended <;> cases x.stopped <;> rfl

/-- The slot of a script stays, or the script has nothing to do any more. -/
theorem filter_script {x : Script (Event κ φ) φ} {started ended : Bool}
    (hended : ended = true → ∀ later, x.isReady later = false ∨ x.reach = none) :
    [⟨.script x, started, ended || (started && x.stopped)⟩].filter (!·.isOver) =
        [(⟨.script x, started, false⟩ : Slot (Event κ φ))] ∨
      [(⟨.script x, started, ended || (started && x.stopped)⟩ : Slot (Event κ φ))].filter
          (!·.isOver) = [] ∧
        ∀ later, x.isReady later = false ∨ x.reach = none := by
  have hover : (⟨.script x, started, ended || (started && x.stopped)⟩ :
      Slot (Event κ φ)).isOver = (ended || x.stopped) := by
    rw [Event.isOver_script]
    cases started <;> cases ended <;> cases x.stopped <;> rfl
  cases h : ended || x.stopped with
  | true =>
    rw [List.filter_cons_of_neg (by rw [hover, h]; decide)]
    refine .inr ⟨rfl, ?_⟩
    rcases Bool.or_eq_true_iff.1 h with hout | hstopped
    · exact hended hout
    · exact fun later => .inl (Script.isReady_of_stopped hstopped later)
  | false =>
    rw [List.filter_cons_of_pos (by rw [hover, h]; decide)]
    obtain ⟨rfl, hgoing⟩ := Bool.or_eq_false_iff.1 h
    rw [hgoing, Bool.and_false, Bool.or_false]
    exact .inl rfl

/-- In a tick a script that is early is left alone, and any other is made to tick. It stays on the
line, or has nothing to do any more. -/
theorem exists_of_visit_script {x : Script (Event κ φ) φ} {started : Bool} {fuel : Nat} {now : Beat}
    {host' : List (Slot (Event κ φ))} {fx : Effects (Event κ φ)}
    (h : runLine (Slot.visit fuel now) [⟨.script x, started, false⟩] = some (host', fx)) :
    ∃ x' begun host'', runLine (Slot.retire fuel now) host' = some (host'', {}) ∧
      (host''.filter (!·.isOver) = [⟨.script x', begun, false⟩] ∨
        host''.filter (!·.isOver) = [] ∧ ∀ later, x'.isReady later = false ∨ x'.reach = none) ∧
      ((!started && now < Placed.beat x) = true ∧ x' = x ∧ begun = started ∧ fx = {} ∨
        ¬(!started && now < Placed.beat x) = true ∧ begun = true ∧
          x.tick fuel now = some (x', fx)) := by
  obtain ⟨s', fx₁, _, _, hs', hnone, rfl, rfl⟩ := exists_of_runLine_cons h
  obtain ⟨rfl, rfl⟩ := Prod.mk.inj (Option.some.inj hnone)
  rw [Effects.append_empty]
  have hretire : ∀ (y : Script (Event κ φ) φ) (begun ended : Bool),
      runLine (Slot.retire fuel now) [(⟨.script y, begun, ended⟩ : Slot (Event κ φ))] =
        some ([⟨.script y, begun, ended || (begun && y.stopped)⟩], {}) := by
    intro y begun ended
    rw [runLine, retire_script]
    rfl
  rcases Event.visit_script_cases hs' with ⟨hearly, rfl, rfl⟩ | ⟨hready, x', htick, rfl⟩
  · exact ⟨x, started, _, hretire _ _ _, filter_script (absurd · Bool.false_ne_true),
      .inl ⟨hearly, rfl, rfl, rfl⟩⟩
  · refine ⟨x', true, _, hretire _ _ _, filter_script fun hout => ?_, .inr ⟨hready, rfl, htick⟩⟩
    exact Event.idle_of_isOver (Script.idle_of_tick htick) (.inl (of_decide_eq_true hout))

/-- In a tick the slot of a script does what a drain of the script does. -/
theorem Hosts.tick {x : Script (Event κ φ) φ} {host host' : List (Slot (Event κ φ))}
    {fuel n : Nat} {now : Beat} {fx : Effects (Event κ φ)} {d : Script.Drained (Event κ φ) φ}
    {report : Script.Report} (hx : x.Steady) (hhost : Hosts x host)
    (hvisit : runLine (Slot.visit fuel now) host = some (host', fx))
    (hd : Script.drainFrom now n 0 x = some d) (hok : d.outcome = .ok report) :
    fx.events = d.effects.events ∧ fx.firings = [] ∧ ∃ host'',
      runLine (Slot.retire fuel now) host' = some (host'', {}) ∧
        Hosts d.script (host''.filter (!·.isOver)) := by
  rcases hhost with ⟨started, rfl⟩ | ⟨rfl, hidle⟩
  · obtain ⟨x', begun, host'', hretire, hkept, ⟨hearly, rfl, -, rfl⟩ | ⟨-, -, htick⟩⟩ :=
      exists_of_visit_script hvisit
    · -- the script is early, and not ready before its beat
      have hready : x'.isReady now = false := by
        obtain ⟨-, hbeat⟩ := Bool.and_eq_true_iff.1 hearly
        have hlt := Beat.lt_of_lt_of_le (of_decide_eq_true hbeat) hx.beat_le
        obtain ⟨hnow, hrest, -⟩ := Beat.lt_iff.1 hlt
        rw [Script.isReady, decide_eq_false ((Beat.not_le_iff hrest hnow).2 hlt), Bool.and_false]
      obtain rfl := Script.eq_of_drainFrom_of_idle (.inl hready) hd
      exact ⟨rfl, rfl, host'', hretire, hkept.imp_left fun h => ⟨begun, h⟩⟩
    · obtain ⟨d', hd', rfl, hquiet⟩ := Script.exists_of_tick htick
      obtain rfl : d' = d := Option.some.inj <|
        (Script.drainFrom_mono hd' (Nat.le_max_left fuel n)).symm.trans
          (Script.drainFrom_mono hd (Nat.le_max_right fuel n))
      have hleft : d'.left = d'.script := by rw [Script.Drained.left, hok]
      rw [hleft] at hkept
      refine ⟨Effects.events_eq_of_quiet hquiet, ?_, host'', hretire,
        hkept.imp_left fun h => ⟨begun, h⟩⟩
      rw [show fx.firings = d'.effects.firings from (Effects.mk.inj hquiet).2.1]
      exact (Script.drains_of_drainFrom hd).firings
  · obtain ⟨rfl, rfl⟩ := Prod.mk.inj (Option.some.inj hvisit)
    obtain rfl := Script.eq_of_drainFrom_of_idle (hidle now) hd
    exact ⟨rfl, rfl, [], rfl, .inr ⟨rfl, hidle⟩⟩

end Timeline

/-! ## What the script hands over -/

/-- The cue that the event is. -/
def Event.cue? : Event κ φ → Option Cue
  | .cue c => some c
  | _ => none

theorem Event.filterMap_cue? (cues : List Cue) :
    (cues.map cue : List (Event κ φ)).filterMap cue? = cues := by
  rw [List.filterMap_map]
  exact List.filterMap_some

namespace Script

variable [Placed κ] [Subroutine φ (Event κ φ)] [Described φ]

/-- If the script hands over an event, it is a cue that is written for no negative beat. -/
def Pass.IsCue (p : Pass (Event κ φ) φ) : Prop :=
  match p.entry with
  | .event e => e.cue?.any (0 ≤ ·.beat) = true
  | _ => True

instance (p : Pass (Event κ φ) φ) : Decidable p.IsCue :=
  match p with
  | ⟨_, _, .event e⟩ => inferInstanceAs (Decidable (e.cue?.any (0 ≤ ·.beat) = true))
  | ⟨_, _, .rest _⟩ | ⟨_, _, .expand _⟩ | ⟨_, _, .marker _⟩ | ⟨_, _, .stop⟩ => .isTrue trivial

/-- A pass hands over cues that are due when the script may go on, or later. -/
theorem Pass.exists_cues {p : Pass (Event κ φ) φ} (hp : p.script.Steady) (hexact : p.IsExact)
    (hcue : p.IsCue) (hahead : 0 ≤ p.script.runahead) : ∃ cues : List Cue,
      p.effects.events = cues.map .cue ∧ ∀ c ∈ cues, p.script.restUntil ≤ c.beat := by
  cases he : p.entry with
  | event e =>
    rw [IsCue, he] at hcue
    cases e with
    | cue c =>
      have hbeat : 0 ≤ c.beat := of_decide_eq_true hcue
      refine ⟨[{ c with beat := p.due (.cue c) }], Pass.events_of_event he, ?_⟩
      exact List.forall_mem_singleton.2 (Pass.restUntil_le_due hp hexact he hbeat hahead)
    | _ => cases hcue
  | _ => exact ⟨[], Pass.events_eq_nil (by simp [he]), nofun⟩

/-- A script hands over cues for later beats than those at which it had nothing to do. -/
theorem Leads.exists_cues {s t : Script (Event κ φ) φ} {ps : List (Pass (Event κ φ) φ)}
    (h : Leads s ps t) (hs : s.Steady) (hahead : 0 ≤ s.runahead)
    (hps : ∀ p ∈ ps, p.IsExact ∧ p.IsCue) : ∃ cues : List Cue,
      ps.flatMap (·.effects.events) = cues.map .cue ∧ ∀ c ∈ cues, c.beat.isNaN = false ∧
        ∀ now, now.isNaN = false → (s.isReady now = false ∨ s.reach = none) → now < c.beat := by
  have hexact : ∀ p ∈ ps, p.IsExact := fun p hp => (hps p hp).1
  have hsteady := (h.steady hs hexact).2
  have hone : ∀ p ∈ ps, ∃ cues : List Cue, p.effects.events = cues.map .cue ∧
      ∀ c ∈ cues, c.beat.isNaN = false ∧ ∀ now, now.isNaN = false →
        (s.isReady now = false ∨ s.reach = none) → now < c.beat := by
    intro p hp
    obtain ⟨hstate, hsame, -⟩ := hsteady p hp
    obtain ⟨cues, hcues, hle⟩ :=
      Pass.exists_cues hstate (hps p hp).1 (hps p hp).2 (hsame ▸ hahead)
    refine ⟨cues, hcues, fun c hc => ⟨(Beat.le_iff.1 (hle c hc)).2.1, fun now hnow hidle => ?_⟩⟩
    exact Beat.lt_of_lt_of_le (h.lt_restUntil_of_idle hs hexact hnow hidle p hp) (hle c hc)
  clear h hps hexact hsteady
  induction ps with
  | nil => exact ⟨[], rfl, nofun⟩
  | cons p ps ih =>
    obtain ⟨hp, hps⟩ := List.forall_mem_cons.1 hone
    obtain ⟨cues, hcues, hlate⟩ := hp
    obtain ⟨more, hmore, hlater⟩ := ih hps
    refine ⟨cues ++ more, ?_, List.forall_mem_append.2 ⟨hlate, hlater⟩⟩
    rw [List.flatMap_cons, hcues, hmore, List.map_append]

end Script

namespace Timeline

open Slot Script

variable [Placed κ] [Hosted κ (Event κ φ)] [Subroutine φ (Event κ φ)] [Described φ]

/-! ## Ticks -/

theorem exists_of_run_tick {ε : Type} [Placed ε] [Hosted ε ε] {fuel : Nat} {k : Tick}
    {deeds : List (Deed α ε)} {t t' : Timeline ε} (h : t.run (.tick fuel k :: deeds) = some t') :
    ∃ t₁ notices, t.tick fuel k = some (t₁, notices) ∧ t₁.run deeds = some t' := by
  rw [Timeline.run, List.foldlM_cons] at h
  obtain ⟨_, hperform, hrest⟩ := Option.bind_eq_some_iff.1 h
  obtain ⟨⟨t₁, notices⟩, htick, rfl⟩ := Option.map_eq_some_iff.1 hperform
  exact ⟨t₁, notices, htick, hrest⟩

/-- The host has done with the script and its cues what was to be done at the beats in `past`. -/
structure Attended (x : Script (Event κ φ) φ) (cues : List Cue) (past : List Beat)
    (t : Timeline (Event κ φ)) : Prop where
  steady : x.Steady
  runahead : 0 ≤ x.runahead
  idle : ∀ now ∈ past, now.isNaN = false ∧ (x.isReady now = false ∨ x.reach = none)
  beats : ∀ c ∈ cues, c.beat.isNaN = false
  slots : ∃ host xs, t.slots = host ++ xs.map ofCue ∧ Hosts x host ∧
    waiting xs = Cue.awaiting past cues
  log : t.log.Perm (cues.filterMap (Cue.onTime past))

/-- What a tick leaves on a line of a script and cues, and what it notes. -/
theorem exists_of_process {fuel n : Nat} {t t' : Timeline (Event κ φ)} {notices : List Notice}
    {x : Script (Event κ φ) φ} {host : List (Slot (Event κ φ))} {xs : List (Cue × Bool)}
    {d : Drained (Event κ φ) φ} {report : Report} {cues : List Cue} (hx : x.Steady)
    (hslots : t.slots = host ++ xs.map ofCue) (hhost : Hosts x host)
    (hd : drainFrom t.clock.beat n 0 x = some d) (hok : d.outcome = .ok report)
    (hcues : d.effects.events = cues.map .cue) (h : t.process fuel = some (t', notices)) :
    ∃ host', Hosts d.script host' ∧
      t'.slots = host' ++ (stay t.clock.beat (xs ++ cues.map (·, false))).map ofCue ∧
      t'.log = ((xs ++ cues.map (·, false)).flatMap (calls t.clock.beat)).reverse ++ t.log ∧
      t'.clock = t.clock := by
  obtain ⟨host', fx, hvisit, hall⟩ := exists_of_process_cues hslots h
  obtain ⟨hevents, hfirings, host'', hretire, hhost'⟩ := hhost.tick hx hvisit hd hok
  exact ⟨_, hhost', hall (hevents.trans hcues) hfirings hretire⟩

theorem Attended.process {fuel n : Nat} {t t' : Timeline (Event κ φ)} {notices : List Notice}
    {x : Script (Event κ φ) φ} {cues : List Cue} {past : List Beat}
    {d : Drained (Event κ φ) φ} {report : Report} (h : Attended x cues past t)
    (hnow : t.clock.beat.isNaN = false) (hpast : ∀ p ∈ past, p ≤ t.clock.beat)
    (hd : drainFrom t.clock.beat n 0 x = some d) (hok : d.outcome = .ok report)
    (hps : ∀ p ∈ x.passes t.clock.beat n 0, p.IsExact ∧ p.IsCue)
    (ht : t.process fuel = some (t', notices)) :
    ∃ new : List Cue, d.effects.events = new.map .cue ∧ t'.clock = t.clock ∧
      Attended d.script (cues ++ new) (past ++ [t.clock.beat]) t' := by
  obtain ⟨hsteady, hahead, hidle, hbeats, ⟨host, xs, hslots, hhost, hwaiting⟩, hlog⟩ := h
  obtain ⟨hleads, hevents, -⟩ := leads_of_drainFrom hd
  obtain ⟨⟨hsteady', hahead'⟩, -⟩ := hleads.steady hsteady fun p hp => (hps p hp).1
  obtain ⟨new, hnew, hlate⟩ := hleads.exists_cues hsteady hahead hps
  obtain ⟨host', hhost', hslots', hlog', hclock⟩ :=
    exists_of_process hsteady hslots hhost hd hok (hevents.trans hnew) ht
  have hbeats' : ∀ c ∈ cues ++ new, c.beat.isNaN = false :=
    List.forall_mem_append.2 ⟨hbeats, fun c hc => (hlate c hc).1⟩
  -- the new cues are for later beats than those in the past, so they join those that wait
  have hlater : ∀ c ∈ new, c.onTime past = none := by
    intro c hc
    rw [Cue.onTime_eq_none_iff]
    intro p hp
    obtain ⟨hnan, hpidle⟩ := hidle p hp
    exact (Beat.not_le_iff (hlate c hc).1 hnan).2 ((hlate c hc).2 p hnan hpidle)
  have hwaiting' : waiting (xs ++ new.map (·, false)) = Cue.awaiting past (cues ++ new) := by
    have hall : Cue.awaiting past new = new :=
      List.filter_eq_self.2 fun c hc => by rw [hlater c hc, Option.isNone_none]
    rw [waiting_append, waiting_new, hwaiting, Cue.awaiting, Cue.awaiting, List.filter_append]
    exact congrArg _ hall.symm
  have hnumbers : ∀ c ∈ waiting (xs ++ new.map (·, false)), c.beat.isNaN = false := by
    rw [hwaiting']
    exact fun c hc => hbeats' c (List.mem_filter.1 hc).1
  obtain ⟨hstay, hcalls⟩ := waiting_of_beats hnow hnumbers
  rw [hwaiting'] at hstay hcalls
  refine ⟨new, hevents.trans hnew, hclock, hsteady', hahead'.symm ▸ hahead, ?_, hbeats',
    ⟨host', _, hslots', hhost', ?_⟩, ?_⟩
  · have hidle' := (drains_of_drainFrom hd).idle_of_ok hok
    refine List.forall_mem_append.2 ⟨fun p hp => ?_, ?_⟩
    · exact ⟨(hidle p hp).1, idle_of_le hidle' (hpast p hp)⟩
    · exact List.forall_mem_singleton.2 ⟨hnow, hidle'⟩
  · rw [hstay, Cue.awaiting_append]
  · have hnone : new.filterMap (Cue.onTime past) = [] := List.filterMap_eq_nil_iff.2 hlater
    rw [hlog', hcalls]
    refine .trans ?_ (Cue.filterMap_onTime_append _ _ _).symm
    refine (List.reverse_perm _).append ?_
    rw [List.filterMap_append, hnone, List.append_nil]
    exact hlog

theorem Attended.run {fuel : Nat} {deeds : List (Deed α (Event κ φ))} {t t' : Timeline (Event κ φ)}
    {x : Script (Event κ φ) φ} {cues : List Cue} {past : List Beat} {r : Series (Event κ φ) φ}
    {reports : List Report} (h : Attended x cues past t)
    (hticks : ∀ owner e, .add owner e ∉ deeds)
    (hnan : ∀ now ∈ Deed.beats t.clock deeds, now.isNaN = false)
    (hle : (past ++ Deed.beats t.clock deeds).Pairwise (· ≤ ·))
    (hr : x.drainAll fuel (Deed.beats t.clock deeds) = some r)
    (hok : r.outcomes = reports.map .ok) (hps : ∀ p ∈ r.passes, p.IsExact ∧ p.IsCue)
    (ht : t.run deeds = some t') :
    Attended r.script (cues ++ r.effects.events.filterMap Event.cue?)
      (past ++ Deed.beats t.clock deeds) t' := by
  induction deeds generalizing t x cues past r reports with
  | nil =>
    cases ht
    cases hr
    simpa [Deed.beats] using h
  | cons deed deeds ih =>
    cases deed with
    | add owner e => exact absurd List.mem_cons_self (hticks owner e)
    | tick n k =>
      have hticks' : ∀ owner e, .add owner e ∉ deeds :=
        fun owner e he => hticks owner e (List.mem_cons_of_mem _ he)
      rw [Deed.beats] at hnan hle hr ⊢
      obtain ⟨hnow, hlater⟩ := List.forall_mem_cons.1 hnan
      obtain ⟨d, r', hd, hr', rfl⟩ := drainAll_cons hr
      obtain ⟨report, reports, rfl, hreport, hreports⟩ := List.map_eq_cons_iff.1 hok.symm
      obtain ⟨hfirst, hrest⟩ := List.forall_mem_append.1 hps
      obtain ⟨t₁, notices, hprocess, ht'⟩ := exists_of_run_tick ht
      rw [tick_eq] at hprocess
      have hstart : Attended x cues past { t with clock := k.clock t.clock } :=
        ⟨h.steady, h.runahead, h.idle, h.beats, h.slots, h.log⟩
      have hpast : ∀ p ∈ past, p ≤ (k.clock t.clock).beat := fun p hp =>
        (List.pairwise_append.1 hle).2.2 p hp _ List.mem_cons_self
      obtain ⟨new, hnew, hclock, hattended⟩ :=
        hstart.process hnow hpast hd hreport.symm hfirst hprocess
      have hclock' : t₁.clock = k.clock t.clock := hclock
      rw [List.append_cons] at hle ⊢
      rw [← hclock'] at hlater hle hr' hattended ⊢
      have hcues : (d.effects ++ { notices := d.script.restNotice t₁.clock.beat d.outcome } ++
          r'.effects).events.filterMap Event.cue? =
            new ++ r'.effects.events.filterMap Event.cue? := by
        rw [Effects.events_append, Effects.events_append, List.append_nil, List.filterMap_append,
          hnew, Event.filterMap_cue?]
      rw [hcues, ← List.append_assoc]
      exact ih hattended hticks' hlater hle hr' hreports.symm hrest ht'

end Timeline

namespace Chronicle

open Script

variable [Placed κ] [Hosted κ (Event κ φ)] [Subroutine φ (Event κ φ)] [Described φ]

theorem filter_zip_others {β : Type} (l : List β) :
    ((l.map fun _ => false).zip l).filter (·.1) = [] := by
  induction l with
  | nil => rfl
  | cons x l ih => exact ih

/-- The others left out, there is only the script. -/
theorem only_ofTimeline {t : Timeline (Event κ φ)} {before after : List (Slot (Event κ φ))}
    {s : Slot (Event κ φ)} (hslots : t.slots = before ++ s :: after) :
    ((ofTimeline t (before.map (fun _ => false) ++ true :: after.map fun _ => false)
      (t.log.map fun _ => false)).only id).timeline = { clock := t.clock, slots := [s] } := by
  have hlive : ((before.map (fun _ => false) ++ true :: after.map fun _ => false).zip
      t.slots).filter (·.1) = [(true, s)] := by
    rw [hslots, List.zip_append (by rw [List.length_map]), List.filter_append, List.zip_cons_cons,
      List.filter_cons_of_pos rfl, filter_zip_others, filter_zip_others, List.nil_append]
  have hlog : ((t.log.map fun _ => false).zip t.log).filter (·.1) = [] := filter_zip_others _
  simp only [ofTimeline, only, timeline, List.filter_map, List.map_map]
  show ({ clock := t.clock, slots := List.map (·.2) (List.filter (·.1) (List.zip _ t.slots)),
          log := List.map (·.2) (List.filter (·.1) (List.zip _ t.log)) } : Timeline _) = _
  rw [hlive, hlog]
  rfl

/-- A script on a time line, which brings on nothing but cues for no negative beats, where no sum
is rounded. At ticks that do not go back each of the cues that drains at the same beats hand over
fires once, at the first tick that is not before it, and not at all if there is none. The others
on the time line have no part in this, and neither has how far the script works ahead, or how long
a cue lasts. -/
theorem perm_onTime_of_run {t t' : Timeline (Event κ φ)} {before after : List (Slot (Event κ φ))}
    {s : Script (Event κ φ) φ} (hslots : t.slots = before ++ { event := .script s } :: after)
    {deeds : List (Deed Bool (Event κ φ))} (hothers : ∀ e, .add true e ∉ deeds)
    (hnan : ∀ now ∈ Deed.beats t.clock deeds, now.isNaN = false)
    (hle : (Deed.beats t.clock deeds).IsChain (· ≤ ·)) (hs : s.Steady) (hahead : 0 ≤ s.runahead)
    {fuel : Nat} {r : Series (Event κ φ) φ} {reports : List Report}
    (hr : s.drainAll fuel (Deed.beats t.clock deeds) = some r) (hok : r.outcomes = reports.map .ok)
    (hps : ∀ p ∈ r.passes, p.IsExact ∧ p.IsCue) (ht : t.run deeds = some t') :
    ∃ c : Chronicle Bool (Event κ φ),
      (ofTimeline t (before.map (fun _ => false) ++ true :: after.map fun _ => false)
        (t.log.map fun _ => false)).run deeds = some c ∧ c.timeline = t' ∧
      ((c.log.filter (·.1)).map (·.2)).Perm ((r.effects.events.filterMap Event.cue?).filterMap
        (Cue.onTime (Deed.beats t.clock deeds))) ∧
      ∀ f, (true, f) ∈ c.log →
        (Deed.beats t.clock deeds).find? (f.scheduled ≤ ·) = some f.fired := by
  have howners : (before.map (fun _ => false) ++ true :: after.map fun _ => false).length =
      t.slots.length := by simp [hslots]
  have hlogOwners : (t.log.map fun _ => false).length = t.log.length := List.length_map _
  obtain ⟨c, hc, htimeline, honly⟩ := timeline_run_only howners hlogOwners ht id
  rw [only_ofTimeline hslots] at honly
  have hticks : ∀ owner e, .add owner e ∉ deeds.filter (Deed.isOf id) := by
    intro owner e he
    obtain ⟨he, howner⟩ := List.mem_filter.1 he
    obtain rfl : owner = true := howner
    exact hothers e he
  have hstart : Timeline.Attended s [] [] { clock := t.clock, slots := [{ event := .script s }] } :=
    ⟨hs, hahead, nofun, nofun, ⟨_, [], rfl, .inl ⟨false, rfl⟩, rfl⟩, .nil⟩
  rw [← Deed.beats_filter id] at hnan hle hr ⊢
  have hend := (hstart.run hticks hnan (List.isChain_iff_pairwise.1 hle) hr hok hps honly).log
  have hperm : ((c.log.filter (·.1)).map (·.2)).Perm
      ((r.effects.events.filterMap Event.cue?).filterMap
        (Cue.onTime (Deed.beats t.clock (deeds.filter (Deed.isOf id))))) := hend
  refine ⟨c, hc, htimeline, hperm, fun f hf => ?_⟩
  have hmem : f ∈ (c.log.filter (·.1)).map (·.2) :=
    List.mem_map.2 ⟨(true, f), List.mem_filter.2 ⟨hf, rfl⟩, rfl⟩
  obtain ⟨cue, -, hcue⟩ := List.mem_filterMap.1 (hperm.mem_iff.1 hmem)
  obtain ⟨now, hnow, rfl⟩ := Option.map_eq_some_iff.1 hcue
  exact hnow

/-- A script that plays a little, and then an encounter. -/
def matinee : Script Playback.ShowEvent Phase :=
  { start := 2
    runahead := 1.5
    queue := .ofList [.cue (.light "dusk" "blue"), .rest 1.25, .marker (.note "curtain"),
      .expand (.opening { loops := some 1 })] }

/-- A host with a cue, a script and another script. -/
def house : Timeline Playback.ShowEvent where
  slots := [{ event := .cue (.moveCamera "zoom" 2 4) }, { event := .script matinee },
    { event := .script Timeline.failing }]

/-- Coarse ticks, and a cue that is added in between. -/
def evening : List (Deed Bool Playback.ShowEvent) :=
  [.tick 30 (.advance 0.75), .add false (.cue (.playStem "in" "drums")), .tick 30 .process,
    .tick 30 (.advanceTo 3.5), .tick 30 (.advanceSeconds 2 120), .tick 30 (.advance 2.25)]

theorem perm_onTime_of_run_evening : ∃ t' r, house.run evening = some t' ∧
    matinee.drainAll 30 (Deed.beats house.clock evening) = some r ∧
    ∃ c : Chronicle Bool Playback.ShowEvent,
      (ofTimeline house ([false] ++ true :: [false]) []).run evening = some c ∧ c.timeline = t' ∧
      ((c.log.filter (·.1)).map (·.2)).Perm ((r.effects.events.filterMap Event.cue?).filterMap
        (Cue.onTime (Deed.beats house.clock evening))) ∧
      ∀ f, (true, f) ∈ c.log →
        (Deed.beats house.clock evening).find? (f.scheduled ≤ ·) = some f.fired := by
  have hrun : (house.run evening).isSome := by decide +kernel
  obtain ⟨t', ht'⟩ := Option.isSome_iff_exists.1 hrun
  have hdrains : (matinee.drainAll 30 (Deed.beats house.clock evening)).any (fun r =>
      r.outcomes.all Except.isOk && decide (∀ p ∈ r.passes, p.IsExact ∧ p.IsCue)) = true := by
    decide +kernel
  obtain ⟨r, hr, hgood⟩ := (Option.any_eq_true _ _).1 hdrains
  obtain ⟨hall, hps⟩ := Bool.and_eq_true_iff.1 hgood
  obtain ⟨reports, hok⟩ := exists_reports hall
  have hs : matinee.Steady := steady_of_new rfl rfl (by decide +kernel)
  have hslots : house.slots = [{ event := .cue (.moveCamera "zoom" 2 4) }] ++
      { event := .script matinee } :: [{ event := .script Timeline.failing }] := rfl
  exact ⟨t', r, ht', hr, perm_onTime_of_run hslots (by simp [evening]) (by decide +kernel)
    (by decide +kernel) hs (by decide +kernel) hr hok (of_decide_eq_true hps) ht'⟩

end Chronicle

end Downbeat
