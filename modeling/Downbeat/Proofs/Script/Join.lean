import Mathlib.Algebra.BigOperators.Group.List.Basic
import Downbeat.Proofs.Beat.Order
import Downbeat.Proofs.Encounter.Blind
import Downbeat.Proofs.Script.Passes

/-!
# Drains at several beats

A drain leaves nothing to do at its beat or before (`Drains.idle_of_ok`), and one at a
later beat takes up where it ended (`Script.exists_drainFrom_of_le`). So a script without a
limit, whose subroutines do not look at the clock of the host, is left by drains at any beats
as it is left by a single drain at the latest of them (`Script.drain_latest_of_drainAll`) :
how often the host looks after a script does not matter. That holds of its ticks as well,
even if it fails (`Script.exists_tick_of_le`).

All this is up to what is reported, which tells the beats of the host (`Drained.quiet`).
-/

set_option linter.unusedSectionVars false

namespace Downbeat

namespace Script.Report

instance : Zero Report := ⟨{}⟩

theorem zero_eq : (0 : Report) = {} := rfl

instance : AddCommMonoid Report where
  add_assoc a b c := by
    show Report.add (Report.add a b) c = Report.add a (Report.add b c)
    simp only [Report.add, Nat.add_assoc]
  zero_add a := by
    show Report.add {} a = a
    simp only [Report.add, Nat.zero_add]
  add_zero a := by
    show Report.add a {} = a
    simp only [Report.add, Nat.add_zero]
  add_comm a b := by
    show Report.add a b = Report.add b a
    simp only [Report.add, Nat.add_comm]
  nsmul := nsmulRec

end Script.Report

namespace Script

variable {ε φ : Type}

namespace Drained

/-- What a drain did, without what it reported. -/
def quiet (d : Drained ε φ) : Drained ε φ := { d with effects := d.effects.quiet }

/-- What two drains did, the second of which is made only if the first ends well. -/
def andThen (d d' : Drained ε φ) : Drained ε φ :=
  match d.outcome with
  | .error _ => d
  | .ok r => ⟨d'.script, d.effects ++ d'.effects, d'.outcome.map (r + ·)⟩

theorem andThen_of_ok {d d' : Drained ε φ} {r : Report} (h : d.outcome = .ok r) :
    d.andThen d' = ⟨d'.script, d.effects ++ d'.effects, d'.outcome.map (r + ·)⟩ := by
  rw [andThen, h]

theorem after_andThen (e : Entry ε φ) (fx : Effects ε) (d d' : Drained ε φ) :
    (d.after e fx).andThen d' = (d.andThen d').after e fx := by
  obtain ⟨script, effects, outcome⟩ := d
  cases outcome with
  | error f => rfl
  | ok r =>
    cases h : d'.outcome with
    | error f => simp [after, andThen, h, Except.map, Effects.append_assoc]
    | ok r' => simp [after, andThen, h, Except.map, Effects.append_assoc, add_assoc]

theorem quiet_after_congr {e : Entry ε φ} {fx fx' : Effects ε} {d d' : Drained ε φ}
    (hfx : fx.quiet = fx'.quiet) (hd : d.quiet = d'.quiet) :
    (d.after e fx).quiet = (d'.after e fx').quiet := by
  obtain ⟨script, effects, outcome⟩ := d
  obtain ⟨script', effects', outcome'⟩ := d'
  obtain ⟨rfl, heffects, rfl⟩ := Drained.mk.inj hd
  simp only [after, quiet, Effects.quiet_append, hfx, heffects]

theorem nothing_andThen (s : Script ε φ) (d : Drained ε φ) :
    (⟨s, {}, .ok {}⟩ : Drained ε φ).andThen d = d := by
  obtain ⟨script, effects, outcome⟩ := d
  cases outcome with
  | error f => rfl
  | ok r => simp [andThen, Except.map, ← Report.zero_eq]

end Drained

variable [Placed ε] [Subroutine φ ε] [Described φ]

/-! ## Later beats -/

theorem isReady_of_le {s : Script ε φ} {now later : Beat} (h : s.isReady now = true)
    (hle : now ≤ later) : s.isReady later = true := by
  simp only [isReady, Bool.and_eq_true, decide_eq_true_eq] at h ⊢
  exact ⟨h.1, Beat.le_trans h.2 hle⟩

theorem isAtLimit_of_limit {s : Script ε φ} (h : s.limit = none) (spent : Nat) :
    s.isAtLimit spent = false := by
  rw [isAtLimit, h, Option.any_none]

/-- What has been worked off does not matter to a script without a limit. -/
theorem drainFrom_spent {now : Beat} {fuel : Nat} {s : Script ε φ} (h : s.limit = none)
    (spent spent' : Nat) : drainFrom now fuel spent s = drainFrom now fuel spent' s := by
  induction fuel generalizing s spent spent' with
  | zero => rfl
  | succ fuel ih =>
    have hturn : s.turn now spent = s.turn now spent' := by
      rw [turn_eq, turn_eq, isAtLimit_of_limit h, isAtLimit_of_limit h]
    have hspec := turn_spec now spent' s
    rw [drainFrom, drainFrom, hturn]
    generalize s.turn now spent' = turn at hspec
    cases hspec with
    | worked ready room reach done =>
      exact congrArg (Option.map _) (ih ((limit_of_worked reach done).trans h) _ _)
    | _ => rfl

/-- Nothing is left to do at an earlier beat, either. -/
theorem idle_of_le {now earlier : Beat} {s : Script ε φ}
    (h : s.isReady now = false ∨ s.reach = none) (hle : earlier ≤ now) :
    s.isReady earlier = false ∨ s.reach = none := by
  rcases h with h | h
  · left
    by_contra hready
    rw [isReady_of_le (eq_true_of_ne_false hready) hle] at h
    cases h
  · exact .inr h

theorem drainFrom_of_idle {now : Beat} {s : Script ε φ}
    (h : s.isReady now = false ∨ s.reach = none) (fuel spent : Nat) :
    drainFrom now (fuel + 1) spent s = some ⟨s, {}, .ok {}⟩ := by
  rw [drainFrom, turn_eq_idle h]

theorem eq_of_drainFrom_of_idle {now : Beat} {fuel spent : Nat} {s : Script ε φ}
    {d : Drained ε φ} (h : s.isReady now = false ∨ s.reach = none)
    (hd : drainFrom now fuel spent s = some d) : d = ⟨s, {}, .ok {}⟩ := by
  cases fuel with
  | zero => cases hd
  | succ fuel =>
    rw [drainFrom_of_idle h] at hd
    exact (Option.some.inj hd).symm

theorem drain_of_idle {now : Beat} {s : Script ε φ}
    (h : s.isReady now = false ∨ s.reach = none) (fuel : Nat) :
    s.drain (fuel + 1) now = some ⟨s, {}, .ok {}⟩ := by
  rw [drain, drainFrom_of_idle h]
  rfl

/-! ## One drain after another -/

section

variable {Q : ε → Prop} {P : φ → Prop}

/-- A drain at a later beat does what a drain at an earlier one does and then, unless there was
a fault, a drain at the later one. -/
theorem exists_drainFrom_of_le (hP : Subroutine.Respects Context.SameScript Q P)
    {now later : Beat} (hle : now ≤ later) {spent : Nat} {s : Script ε φ} {d d' : Drained ε φ}
    (h : Drains now spent s d) (hs : s.Within Q P) (hlimit : s.limit = none)
    (h' : ∀ r, d.outcome = .ok r → ∃ fuel spent', drainFrom later fuel spent' d.script = some d') :
    ∃ fuel d'', drainFrom later fuel spent s = some d'' ∧ d''.quiet = (d.andThen d').quiet := by
  induction h with
  | idle hidle =>
    obtain ⟨fuel, spent', hd'⟩ := h' {} rfl
    rw [drainFrom_spent hlimit spent' _] at hd'
    exact ⟨fuel, d', hd', by rw [Drained.nothing_andThen]⟩
  | putBack ready full reach =>
    rw [isAtLimit_of_limit hlimit] at full
    cases full
  | @dropped spent s left x ready room reach invalid =>
    have hturn : s.turn later spent = .broken left (.invalidRest x) := by
      rw [turn_eq_of_reach (isReady_of_le ready hle) room reach, consume, if_neg invalid]
    exact ⟨1, ⟨left, {}, .error (.invalidRest x)⟩, by rw [drainFrom, hturn], rfl⟩
  | @worked spent s left t e fx d ready room reach done _ ih =>
    obtain ⟨he, hleft⟩ := hs.of_reach reach
    have hsame : (left.context now).SameScript (left.context later) := ⟨rfl, rfl, rfl⟩
    obtain ⟨fx', hdone, hfx⟩ := consume_congr hP he hsame done
    have ht : t.limit = none := (limit_of_worked reach done).trans hlimit
    have hturn : s.turn later spent = .worked e t fx' := by
      rw [turn_eq_of_reach (isReady_of_le ready hle) room reach, hdone]
    have hrest : ∀ r, d.outcome = .ok r →
        ∃ fuel spent', drainFrom later fuel spent' d.script = some d' := by
      intro r hr
      refine h' (Report.ofEntry e + r) ?_
      rw [Drained.after, hr, Except.map]
    obtain ⟨fuel, d₂, hd₂, hquiet⟩ := ih (hleft.of_consume hP he done) ht hrest
    refine ⟨fuel + 1, d₂.after e fx', ?_, ?_⟩
    · rw [drainFrom_succ_of_worked hturn, hd₂, Option.map_some]
    · rw [Drained.after_andThen]
      exact Drained.quiet_after_congr hfx hquiet

theorem exists_drain_of_drainFrom {now : Beat} {fuel : Nat} {s : Script ε φ} {d : Drained ε φ}
    (h : drainFrom now fuel 0 s = some d) :
    ∃ d', s.drain fuel now = some d' ∧ d'.quiet = d.quiet := by
  refine ⟨{ d with effects := d.effects ++ { notices := d.script.restNotice now d.outcome } },
    ?_, ?_⟩
  · rw [drain, h, Option.map_some]
  · simp only [Drained.quiet, Effects.quiet_append, Effects.quiet_notices, Effects.append_empty]

/-! ## Ticks -/

/-- How a drain leaves a script that its host runs : a fault stops it. -/
def Drained.left (d : Drained ε φ) : Script ε φ :=
  match d.outcome with
  | .ok _ => d.script
  | .error _ => d.script.stop.1

theorem exists_of_tick {now : Beat} {fuel : Nat} {s s' : Script ε φ} {fx : Effects ε}
    (h : s.tick fuel now = some (s', fx)) : ∃ d, drainFrom now fuel 0 s = some d ∧
      s' = d.left ∧ fx.quiet = d.effects.quiet := by
  obtain ⟨_, hdrain, htick⟩ := Option.map_eq_some_iff.1 h
  obtain ⟨d, hd, rfl⟩ := Option.map_eq_some_iff.1 hdrain
  refine ⟨d, hd, ?_⟩
  cases ho : d.outcome with
  | ok r =>
    obtain ⟨rfl, rfl⟩ : d.script = s' ∧ _ = fx := by simpa [ho] using htick
    simp [Drained.left, ho]
  | error f =>
    obtain ⟨rfl, rfl⟩ : d.script.stop.1 = s' ∧ _ = fx := by simpa [ho] using htick
    simp [Drained.left, ho]

theorem exists_tick_of_drainFrom {now : Beat} {fuel : Nat} {s : Script ε φ} {d : Drained ε φ}
    (h : drainFrom now fuel 0 s = some d) :
    ∃ fx, s.tick fuel now = some (d.left, fx) ∧ fx.quiet = d.effects.quiet := by
  rw [tick, drain, h, Option.map_some, Option.map_some, Drained.left]
  cases d.outcome with
  | ok r => exact ⟨_, rfl, by simp⟩
  | error f => exact ⟨_, rfl, by simp⟩

theorem tick_mono {now : Beat} {n m : Nat} {s : Script ε φ} {x : Script ε φ × Effects ε}
    (h : s.tick n now = some x) (hnm : n ≤ m) : s.tick m now = some x := by
  obtain ⟨_, hdrain, rfl⟩ := Option.map_eq_some_iff.1 h
  obtain ⟨d, hd, rfl⟩ := Option.map_eq_some_iff.1 hdrain
  rw [tick, drain, drainFrom_mono hd hnm, Option.map_some, Option.map_some]

theorem tick_of_idle {now : Beat} {s : Script ε φ}
    (h : s.isReady now = false ∨ s.reach = none) (fuel : Nat) :
    s.tick (fuel + 1) now = some (s, {}) := by
  rw [tick, drain_of_idle h, Option.map_some]

theorem isReady_of_stopped {s : Script ε φ} (h : s.stopped = true) (now : Beat) :
    s.isReady now = false := by
  rw [isReady, h, Bool.not_true, Bool.false_and]

/-- A tick leaves nothing to do. -/
theorem idle_of_tick {now : Beat} {fuel : Nat} {s s' : Script ε φ} {fx : Effects ε}
    (h : s.tick fuel now = some (s', fx)) : s'.isReady now = false ∨ s'.reach = none := by
  obtain ⟨d, hd, rfl, -⟩ := exists_of_tick h
  rw [Drained.left]
  cases ho : d.outcome with
  | ok r => exact (drains_of_drainFrom hd).idle_of_ok ho
  | error f => exact .inl (isReady_of_stopped rfl now)

/-- A later tick makes an earlier one needless, also where the script fails or stops. -/
theorem exists_tick_of_le (hP : Subroutine.Respects Context.SameScript Q P) {now later : Beat}
    (hle : now ≤ later) {n m : Nat} {s s' s'' : Script ε φ} {fx fx' : Effects ε}
    (hs : s.Within Q P) (hlimit : s.limit = none) (h : s.tick n now = some (s', fx))
    (h' : s'.tick m later = some (s'', fx')) :
    ∃ k fx'', s.tick k later = some (s'', fx'') ∧ fx''.quiet = (fx ++ fx').quiet := by
  obtain ⟨d, hd, rfl, hfx⟩ := exists_of_tick h
  have hdrains := drains_of_drainFrom hd
  cases ho : d.outcome with
  | ok r =>
    rw [Drained.left, ho] at h'
    obtain ⟨d', hd', rfl, hfx'⟩ := exists_of_tick h'
    obtain ⟨k, d'', hd'', hquiet⟩ :=
      exists_drainFrom_of_le hP hle hdrains hs hlimit fun _ _ => ⟨m, 0, hd'⟩
    obtain ⟨fx'', htick, hfx''⟩ := exists_tick_of_drainFrom hd''
    rw [Drained.andThen_of_ok ho] at hquiet
    obtain ⟨hscript, heffects, houtcome⟩ := Drained.mk.inj hquiet
    refine ⟨k, fx'', ?_, ?_⟩
    · rw [htick, Drained.left, Drained.left, houtcome, hscript]
      cases d'.outcome <;> rfl
    · rw [hfx'', heffects, Effects.quiet_append, Effects.quiet_append, hfx, hfx']
  | error f =>
    have hstopped : d.left.stopped = true := by rw [Drained.left, ho]; rfl
    obtain ⟨rfl, rfl⟩ : s'' = d.left ∧ fx' = {} := by
      cases m with
      | zero => cases h'
      | succ m =>
        rw [tick_of_idle (.inl (isReady_of_stopped hstopped later))] at h'
        cases h'
        exact ⟨rfl, rfl⟩
    have hnone : ∀ r, d.outcome = .ok r →
        ∃ fuel spent', drainFrom later fuel spent' d.script = some d := by
      intro r hr
      rw [ho] at hr
      cases hr
    obtain ⟨k, d'', hd'', hquiet⟩ := exists_drainFrom_of_le hP hle hdrains hs hlimit hnone
    obtain ⟨fx'', htick, hfx''⟩ := exists_tick_of_drainFrom hd''
    rw [Drained.andThen, ho] at hquiet
    obtain ⟨hscript, heffects, houtcome⟩ := Drained.mk.inj hquiet
    refine ⟨k, fx'', ?_, ?_⟩
    · rw [htick, Drained.left, Drained.left, houtcome, hscript]
    · rw [hfx'', heffects, Effects.append_empty, hfx]

/-- A tick keeps a script within what it started with, and so are the events it brings on. -/
theorem Within.of_tick (hP : Subroutine.Respects Context.SameScript Q P)
    (hmove : ∀ (b : Beat) (e : ε), Q e → Q (Placed.moveTo b e)) {now : Beat} {fuel : Nat}
    {s s' : Script ε φ} {fx : Effects ε} (hs : s.Within Q P)
    (h : s.tick fuel now = some (s', fx)) :
    s'.Within Q P ∧ s'.limit = s.limit ∧ ∀ e ∈ fx.events, Q e := by
  obtain ⟨d, hd, rfl, hfx⟩ := exists_of_tick h
  have hdrains := drains_of_drainFrom hd
  obtain ⟨hwithin, hlimit⟩ := hs.of_drains hP hdrains
  have hevents : fx.events = d.effects.events := (Effects.mk.inj hfx).1
  rw [hevents]
  refine ⟨?_, ?_, hs.events_of_drains hP hmove hdrains⟩
  · rw [Drained.left]
    split
    · exact hwithin
    · exact hwithin
  · rw [Drained.left, ← hlimit]
    split <;> rfl

/-! ## Any number of drains -/

/-- Drains of a script with nothing to do. -/
theorem drainAll_of_idle {fuel : Nat} {nows : List Beat} {s : Script ε φ} {r : Series ε φ}
    (h : ∀ now ∈ nows, s.isReady now = false ∨ s.reach = none)
    (hr : s.drainAll fuel nows = some r) :
    r.script = s ∧ r.effects.quiet = {} ∧ r.outcomes = nows.map fun _ => .ok {} := by
  induction nows generalizing r with
  | nil =>
    cases hr
    exact ⟨rfl, rfl, rfl⟩
  | cons now nows ih =>
    obtain ⟨d, r', hd, hr', rfl⟩ := drainAll_cons hr
    cases fuel with
    | zero => cases hd
    | succ fuel =>
      rw [drainFrom_of_idle (h now List.mem_cons_self)] at hd
      cases hd
      obtain ⟨hscript, heffects, houtcomes⟩ := ih (fun n hn => h n (List.mem_cons_of_mem _ hn)) hr'
      refine ⟨hscript, ?_, ?_⟩
      · simp [heffects]
      · simp [houtcomes]

theorem exists_drainFrom_of_drainAll (hP : Subroutine.Respects Context.SameScript Q P)
    {fuel : Nat} {nows : List Beat} {last : Beat} {s : Script ε φ} {r : Series ε φ}
    {reports : List Report} (hs : s.Within Q P) (hlimit : s.limit = none) (hmem : last ∈ nows)
    (hle : ∀ now ∈ nows, now ≤ last) (hr : s.drainAll fuel nows = some r)
    (hok : r.outcomes = reports.map .ok) : ∃ n d, drainFrom last n 0 s = some d ∧
      d.quiet = ⟨r.script, r.effects.quiet, .ok reports.sum⟩ := by
  induction nows generalizing s r reports with
  | nil => cases hmem
  | cons now nows ih =>
    obtain ⟨d, r', hd, hr', rfl⟩ := drainAll_cons hr
    obtain ⟨x, xs, rfl, hx, hxs⟩ := List.map_eq_cons_iff.1 hok.symm
    have hnow := hle now List.mem_cons_self
    have htail : ∀ n ∈ nows, n ≤ last := fun n hn => hle n (List.mem_cons_of_mem _ hn)
    by_cases hmem' : last ∈ nows
    · have hdrains := drains_of_drainFrom hd
      obtain ⟨hwithin, hlim⟩ := hs.of_drains hP hdrains
      obtain ⟨m, d', hd', hquiet⟩ := ih hwithin (hlim.trans hlimit) hmem' htail hr' hxs.symm
      obtain ⟨k, d'', hd'', hquiet'⟩ :=
        exists_drainFrom_of_le hP hnow hdrains hs hlimit fun _ _ => ⟨m, 0, hd'⟩
      obtain ⟨hscript, heffects, houtcome⟩ := Drained.mk.inj hquiet
      refine ⟨k, d'', hd'', ?_⟩
      rw [hquiet', Drained.andThen_of_ok hx.symm]
      simp only [Drained.quiet, Effects.quiet_append, hscript, heffects, houtcome,
        Effects.quiet_notices, Effects.append_empty, Except.map, List.sum_cons]
    · -- the last beat is this one, and leaves nothing to do for the others
      obtain rfl : last = now := (List.mem_cons.1 hmem).resolve_right hmem'
      have hidle := (drains_of_drainFrom hd).idle_of_ok hx.symm
      obtain ⟨hscript, heffects, houtcomes⟩ :=
        drainAll_of_idle (fun n hn => idle_of_le hidle (htail n hn)) hr'
      have hsum : xs.sum = 0 := by
        refine List.sum_eq_zero fun y hy => ?_
        have hy' : (.ok y : Except Fault Report) ∈ nows.map fun _ => .ok {} := by
          rw [← houtcomes, ← hxs]
          exact List.mem_map_of_mem hy
        obtain ⟨_, -, h⟩ := List.mem_map.1 hy'
        cases h
        rfl
      refine ⟨fuel, d, hd, ?_⟩
      simp only [Drained.quiet, Effects.quiet_append, hscript, heffects, ← hx, hsum,
        Effects.quiet_notices, Effects.append_empty, List.sum_cons, add_zero]

/-- Outcomes that are all good are reports. -/
theorem exists_reports {os : List (Except Fault Report)} (h : os.all Except.isOk = true) :
    ∃ reports : List Report, os = reports.map .ok := by
  induction os with
  | nil => exact ⟨[], rfl⟩
  | cons o os ih =>
    rw [List.all_cons, Bool.and_eq_true] at h
    obtain ⟨reports, rfl⟩ := ih h.2
    cases o with
    | error f => cases h.1
    | ok r => exact ⟨r :: reports, rfl⟩

/-- Drains that end well, at any beats, are one drain at the latest of them, and leave nothing
to do at a beat that is not later. -/
theorem drain_latest_of_drainAll {P : φ → Prop}
    (hP : Subroutine.Respects Context.SameScript (fun _ : ε => True) P) {s : Script ε φ}
    (hs : s.Within (fun _ => True) P) (hlimit : s.limit = none) {fuel : Nat} {first : Beat}
    {others : List Beat} (hnan : ∀ now ∈ first :: others, now.isNaN = false) {r : Series ε φ}
    {reports : List Report} (hr : s.drainAll fuel (first :: others) = some r)
    (hok : r.outcomes = reports.map .ok) :
    (∃ n d, s.drain n (others.foldl max first) = some d ∧ d.script = r.script ∧
      d.effects.events = r.effects.events ∧ d.outcome = .ok reports.sum) ∧
      ∀ now ≤ others.foldl max first, ∀ n,
        r.script.drain (n + 1) now = some ⟨r.script, {}, .ok {}⟩ := by
  obtain ⟨hmem, hle⟩ := Beat.foldl_max hnan
  obtain ⟨n, d, hd, hquiet⟩ := exists_drainFrom_of_drainAll hP hs hlimit hmem hle hr hok
  obtain ⟨d', hd', hquiet'⟩ := exists_drain_of_drainFrom hd
  obtain ⟨hscript, heffects, houtcome⟩ := Drained.mk.inj hquiet
  obtain ⟨hscript', heffects', houtcome'⟩ := Drained.mk.inj (hquiet'.trans hquiet)
  constructor
  · exact ⟨n, d', hd', hscript', (Effects.mk.inj heffects').1, houtcome'⟩
  · intro now hnow n
    have hidle := (drains_of_drainFrom hd).idle_of_ok houtcome
    rw [hscript] at hidle
    exact drain_of_idle (idle_of_le hidle hnow) n

end

/-- A script that plays an opening after a rest. -/
def steady : Script Playback.ShowEvent Phase :=
  { start := 4
    runahead := 1
    queue := .ofList [.cue (.light "dusk" "blue"), .rest 2,
      .expand (.opening { loops := some 0 })] }

theorem drain_latest_of_drainAll_steady :
    ∃ r, ∃ reports : List Report, steady.drainAll 20 [5, 3, 9, 7] = some r ∧
      r.outcomes = reports.map .ok ∧
      (∃ n d, steady.drain n ([3, 9, 7].foldl max 5) = some d ∧ d.script = r.script ∧
        d.effects.events = r.effects.events ∧ d.outcome = .ok reports.sum) ∧
      ∀ now ≤ [3, 9, 7].foldl max 5, ∀ n,
        r.script.drain (n + 1) now = some ⟨r.script, {}, .ok {}⟩ := by
  have hrun : (steady.drainAll 20 [5, 3, 9, 7]).map (·.outcomes.all Except.isOk) = some true := by
    decide +kernel
  obtain ⟨r, hr, hall⟩ := Option.map_eq_some_iff.1 hrun
  obtain ⟨reports, hreports⟩ : ∃ reports : List Report, r.outcomes = reports.map .ok :=
    exists_reports hall
  have hwithin : steady.Within (fun _ => True) (fun _ => True) := by
    intro e _
    cases e <;> trivial
  have hrespects : Subroutine.Respects Context.SameScript
      (fun _ : Playback.ShowEvent => True) fun _ : Phase => True :=
    Phase.respects _ fun _ => trivial
  exact ⟨r, reports, hr, hreports,
    drain_latest_of_drainAll hrespects hwithin rfl (by decide +kernel) hr hreports⟩

end Script

end Downbeat
