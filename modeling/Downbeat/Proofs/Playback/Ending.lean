import Mathlib.Algebra.Order.Archimedean.Basic
import Downbeat.Playback
import Downbeat.Proofs.Beat.Horizon
import Downbeat.Proofs.Timeline.Bound
import Downbeat.Proofs.Timeline.Settling

/-!
# Whether playing ends

A tick of a show moves the clock on by one step, whatever the events do
(`Playback.beat_of_advanceSeconds`). So if the work of each tick ends, playing ends exactly if
the length of the show is within what steps of that length get to
(`Playback.exists_fired_iff`) : below it each tick moves the clock on, to the next double or
further, and beyond it the clock never gets to the length (`Playback.drive_eq_none`).

Settings with no flaw may have steps that do not get to the length, as the seconds of a short
tick at a fast tempo are rounded to nothing (`Playback.frozen`).
-/

namespace Downbeat

/-- The beats by which a tick moves the clock on. -/
def PlaybackSettings.step (c : PlaybackSettings) : Beat :=
  Clock.forward (c.tickSeconds * c.bpm / 60)

theorem Clock.zero_le_forward (delta : Beat) : 0 ≤ forward delta := by
  unfold forward
  split
  · exact Beat.le_of_lt ‹_›
  · exact Beat.le_refl (by rfl)

/-! ## Ticks -/

namespace Timeline

variable {ε : Type} [Placed ε] [Hosted ε ε] {fuel : Nat}

omit [Placed ε] [Hosted ε ε] in
theorem runLine_of_idle {go : Slot ε → Option (Slot ε × Effects ε)} {line : List (Slot ε)}
    (h : ∀ s ∈ line, go s = some (s, {})) : runLine go line = some (line, {}) := by
  induction line with
  | nil => rfl
  | cons s rest ih =>
    rw [List.forall_mem_cons] at h
    rw [runLine, h.1, ih h.2]
    rfl

/-- The sweep leaves alone what is not over. -/
theorem retire_of_isOver_eq_false {s : Slot ε} {now : Beat} (h : s.isOver = false) :
    s.retire fuel now = some (s, {}) := by
  obtain ⟨-, hdone⟩ := Bool.or_eq_false_iff.1 h
  rw [Slot.retire, hdone, Bool.and_false, if_neg Bool.false_ne_true]

/-- A tick does nothing if its visits do nothing to any event and none is over. -/
theorem process_of_idle {t : Timeline ε} (h : ∀ s ∈ t.slots, s.isOver = false ∧
      s.visit (fuel + 1) t.clock.beat = some (s, {})) :
    t.process (fuel + 1) = some (t, [.ticked t.clock.beat 0 t.slots.length]) := by
  have hvisit : runLine (Slot.visit (fuel + 1) t.clock.beat) t.slots = some (t.slots, {}) :=
    runLine_of_idle fun s hs => (h s hs).2
  have hretire : runLine (Slot.retire (fuel + 1) t.clock.beat) t.slots = some (t.slots, {}) :=
    runLine_of_idle fun s hs => retire_of_isOver_eq_false (h s hs).1
  have hfilter : t.slots.filter (!·.isOver) = t.slots := by
    refine List.filter_eq_self.2 fun s hs => ?_
    rw [(h s hs).1]
    rfl
  have hall : visitAll (fuel + 1) t.clock.beat (fuel + 1) t.slots = some (t.slots, {}) := by
    rw [visitAll, hvisit]
    rfl
  refine Option.bind_eq_some_iff.2 ⟨_, hall, Option.bind_eq_some_iff.2 ⟨_, hretire, ?_⟩⟩
  dsimp only
  rw [hfilter, ← fewer_self t.slots.length]
  rfl

/-- A tick does nothing while all events wait for their beats. -/
theorem process_of_waiting {t : Timeline ε} (h : ∀ s ∈ t.slots,
      s.started = false ∧ s.isEarly t.clock.beat = true ∧ s.isOver = false) :
    t.process (fuel + 1) = some (t, [.ticked t.clock.beat 0 t.slots.length]) := by
  refine process_of_idle fun s hs => ?_
  obtain ⟨hstarted, hearly, hover⟩ := h s hs
  refine ⟨hover, ?_⟩
  rw [Slot.visit, hstarted, hearly]
  rfl

end Timeline

namespace Playback

/-- Through the ticks of a show, each of which may take as much work as it needs. -/
inductive Reaches (c : PlaybackSettings) (t : Timeline ShowEvent) : Timeline ShowEvent → Prop
  | start : Reaches c t t
  | tick {u v : Timeline ShowEvent} {fuel : Nat} {notices : List Notice} (before : Reaches c t u)
      (below : u.clock.beat < c.lengthBeats)
      (done : u.advanceSeconds fuel c.tickSeconds c.bpm = some (v, notices)) : Reaches c t v

variable {c : PlaybackSettings} {t u : Timeline ShowEvent} {fuel ticks : Nat}

theorem beat_of_advanceSeconds {notices : List Notice}
    (h : t.advanceSeconds fuel c.tickSeconds c.bpm = some (u, notices)) :
    u.clock.beat = t.clock.beat + c.step := by
  rw [Timeline.clock_of_process h]
  rfl

/-! ## The loop -/

theorem drive_of_not_lt (h : ¬t.clock.beat < c.lengthBeats) : drive fuel c ticks t = some t := by
  unfold drive
  rw [if_neg h]

theorem drive_succ_of_lt (h : t.clock.beat < c.lengthBeats) : drive fuel c (ticks + 1) t =
    (t.advanceSeconds fuel c.tickSeconds c.bpm).bind fun r => drive fuel c ticks r.1 := by
  rw [drive, if_pos h]
  rfl

theorem drive_mono {fuel' ticks' : Nat} {r : Timeline ShowEvent} (hfuel : fuel ≤ fuel')
    (hticks : ticks ≤ ticks') (h : drive fuel c ticks t = some r) :
    drive fuel' c ticks' t = some r := by
  induction ticks generalizing ticks' t with
  | zero =>
    by_cases hlt : t.clock.beat < c.lengthBeats
    · rw [drive, if_pos hlt] at h
      cases h
    · rw [drive_of_not_lt hlt] at h ⊢
      exact h
  | succ ticks ih =>
    obtain ⟨ticks', rfl⟩ := Nat.exists_eq_add_one_of_ne_zero (Nat.ne_zero_of_lt hticks)
    by_cases hlt : t.clock.beat < c.lengthBeats
    · rw [drive_succ_of_lt hlt] at h ⊢
      exact bind_mono h (fun _ => Timeline.process_mono hfuel) fun _ => ih (by omega)
    · rw [drive_of_not_lt hlt] at h ⊢
      exact h

section

variable (hlength : c.lengthBeats.isFinite = true)
  (hceiling : (Beat.value c.lengthBeats : WithTop ℚ) ≤ Beat.ceiling c.step)
include hlength hceiling

/-- Within the ceiling, each tick before the end moves the clock on. -/
theorem lt_add_step (hbeat : 0 ≤ t.clock.beat) (h : t.clock.beat < c.lengthBeats) :
    t.clock.beat < t.clock.beat + c.step := by
  have hfin := Beat.isFinite_of_lt hbeat h
  have hvalue : (Beat.value t.clock.beat : WithTop ℚ) < Beat.value c.lengthBeats := by
    exact_mod_cast (Beat.lt_iff_value hfin hlength).1 h
  exact Beat.lt_add_of_lt_ceiling hfin hbeat (Clock.zero_le_forward _) (hvalue.trans_le hceiling)

theorem zero_le_of_reaches (hbeat : 0 ≤ t.clock.beat) (h : Reaches c t u) :
    0 ≤ u.clock.beat := by
  induction h with
  | start => exact hbeat
  | tick _ below done ih =>
    rw [beat_of_advanceSeconds done]
    exact Beat.le_trans ih (Beat.le_of_lt (lt_add_step hlength hceiling ih below))

/-- Within the ceiling, the loop ends : each tick brings the clock closer to the length by the
least double. -/
theorem exists_drive (hticks : ∀ u, Reaches c t u → u.clock.beat < c.lengthBeats →
      ∃ fuel r, u.advanceSeconds fuel c.tickSeconds c.bpm = some r) (hbeat : 0 ≤ t.clock.beat)
    (hreach : Reaches c t u) {n : Nat}
    (hn : Beat.value c.lengthBeats < Beat.value u.clock.beat + n * 2 ^ (-1074 : ℤ)) :
    ∃ fuel ticks r, drive fuel c ticks u = some r := by
  induction n generalizing u with
  | zero =>
    refine ⟨0, 0, u, drive_of_not_lt fun hlt => ?_⟩
    have hfin := Beat.isFinite_of_lt (zero_le_of_reaches hlength hceiling hbeat hreach) hlt
    rw [Beat.lt_iff_value hfin hlength] at hlt
    rw [Nat.cast_zero, zero_mul, add_zero] at hn
    exact absurd hn hlt.not_gt
  | succ n ih =>
    by_cases hlt : u.clock.beat < c.lengthBeats
    · have hubeat := zero_le_of_reaches hlength hceiling hbeat hreach
      obtain ⟨fuel, ⟨v, notices⟩, hv⟩ := hticks u hreach hlt
      have hmove : u.clock.beat < v.clock.beat := by
        rw [beat_of_advanceSeconds hv]
        exact lt_add_step hlength hceiling hubeat hlt
      obtain ⟨fuel', ticks, r, hr⟩ : ∃ fuel ticks r, drive fuel c ticks v = some r := by
        by_cases hvlt : v.clock.beat < c.lengthBeats
        · refine ih (.tick hreach hlt hv) ?_
          have hfin := Beat.isFinite_of_lt hubeat hlt
          have hvfin :=
            Beat.isFinite_of_lt (Beat.le_trans hubeat (Beat.le_of_lt hmove)) hvlt
          have hnext := Beat.add_le_of_lt (Beat.isDouble_value _) (Beat.isDouble_value _)
            ((Beat.lt_iff_value hfin hvfin).1 hmove)
          rw [Nat.cast_succ, add_one_mul] at hn
          linarith
        · exact ⟨0, 0, v, drive_of_not_lt hvlt⟩
      refine ⟨max fuel fuel', ticks + 1, r, ?_⟩
      rw [drive_succ_of_lt hlt]
      refine Option.bind_eq_some_iff.2 ⟨_, Timeline.process_mono (le_max_left _ _) hv, ?_⟩
      exact drive_mono (le_max_right _ _) le_rfl hr
    · exact ⟨0, 0, u, drive_of_not_lt hlt⟩

end

/-- Beyond the ceiling, the loop never ends. -/
theorem drive_eq_none (hlength : c.lengthBeats.isFinite = true)
    (hceiling : Beat.ceiling c.step < (Beat.value c.lengthBeats : WithTop ℚ))
    (hfin : t.clock.beat.isFinite = true) (hbeat : 0 ≤ t.clock.beat)
    (hle : (Beat.value t.clock.beat : WithTop ℚ) ≤ Beat.ceiling c.step) :
    drive fuel c ticks t = none := by
  have hstep : c.step.isFinite = true := by
    by_contra h
    rw [Beat.ceiling, if_neg h] at hceiling
    exact absurd hceiling le_top.not_gt
  rw [Beat.ceiling_of_isFinite hstep] at hceiling hle
  have hrange : Beat.horizon (Beat.value c.step) < Beat.value c.lengthBeats := by
    exact_mod_cast hceiling
  have hrange' : Beat.horizon (Beat.value c.step) < 2 ^ (1024 : ℤ) :=
    hrange.trans ((le_abs_self _).trans_lt (Beat.abs_value_lt c.lengthBeats))
  replace hle : Beat.value t.clock.beat ≤ Beat.horizon (Beat.value c.step) := by
    exact_mod_cast hle
  induction ticks generalizing t with
  | zero =>
    rw [drive, if_pos ((Beat.lt_iff_value hfin hlength).2 (hle.trans_lt hrange))]
  | succ ticks ih =>
    rw [drive_succ_of_lt ((Beat.lt_iff_value hfin hlength).2 (hle.trans_lt hrange))]
    refine Option.bind_eq_none_iff.2 fun (u, notices) hu => ?_
    obtain ⟨hufin, hubeat, hule⟩ := Beat.value_add_le hfin hbeat hstep (Clock.zero_le_forward _)
      hrange' hle
    rw [← beat_of_advanceSeconds hu] at hufin hubeat hule
    exact ih hufin hubeat hule

/-! ## Playing -/

theorem beat_opening (s : Settings) : (opening s).clock.beat = 0 := rfl

theorem drive_opening_eq_none {s : Settings} (hlength : s.playback.lengthBeats.isFinite = true)
    (hceiling : Beat.ceiling s.playback.step < (Beat.value s.playback.lengthBeats : WithTop ℚ)) :
    drive fuel s.playback ticks (opening s) = none := by
  refine drive_eq_none hlength hceiling ?_ ?_ ?_ <;> rw [beat_opening]
  · exact Beat.isFinite_zero
  · exact Beat.le_refl (by rfl)
  · rw [Beat.value_zero]
    exact Beat.ceiling_nonneg _

/-- If the work of each tick ends, a show ends exactly if its length is within what its steps
get to, and then each tick before the end moves the clock on. -/
theorem exists_fired_iff {s : Settings} (hlength : s.playback.lengthBeats.isFinite = true)
    (hticks : ∀ t, Reaches s.playback (opening s) t → t.clock.beat < s.playback.lengthBeats →
      ∃ fuel r, t.advanceSeconds fuel s.playback.tickSeconds s.playback.bpm = some r) :
    ((∃ fuel firings, fired fuel s = some firings) ↔
        (Beat.value s.playback.lengthBeats : WithTop ℚ) ≤ Beat.ceiling s.playback.step) ∧
      ((Beat.value s.playback.lengthBeats : WithTop ℚ) ≤ Beat.ceiling s.playback.step →
        ∀ t, Reaches s.playback (opening s) t → t.clock.beat < s.playback.lengthBeats →
          t.clock.beat < (t.clock.advanceSeconds s.playback.tickSeconds s.playback.bpm).beat) := by
  have hbeat : 0 ≤ (opening s).clock.beat := Beat.le_refl (by rfl)
  refine ⟨⟨fun ⟨fuel, firings, h⟩ => ?_, fun hceiling => ?_⟩, fun hceiling t ht hlt => ?_⟩
  · by_contra hceiling
    rw [fired, drive_opening_eq_none hlength (not_le.1 hceiling)] at h
    cases h
  · obtain ⟨n, hn⟩ := exists_nat_gt ((Beat.value s.playback.lengthBeats -
      Beat.value (opening s).clock.beat) / 2 ^ (-1074 : ℤ))
    rw [div_lt_iff₀ (Beat.two_zpow_pos _), sub_lt_iff_lt_add'] at hn
    obtain ⟨fuel, ticks, r, hr⟩ := exists_drive hlength hceiling hticks hbeat .start hn
    refine ⟨max fuel ticks, r.fired, ?_⟩
    rw [fired, drive_mono (le_max_left _ _) (le_max_right _ _) hr, Option.map_some]
  · exact lt_add_step hlength hceiling (zero_le_of_reaches hlength hceiling hbeat ht) hlt

/-! ## Two shows -/

section

variable {s : Settings} (hslots : t.slots = (opening s).slots)
  (hstopped : (script s).stopped = false)
  (hearly : (t.clock.advanceSeconds s.playback.tickSeconds s.playback.bpm).beat <
    Placed.beat (script s))
include hslots hstopped hearly

/-- A tick before the script of the show may work only moves the clock. -/
theorem advanceSeconds_of_waiting (n : Nat) :
    ∃ notices, t.advanceSeconds (n + 1) s.playback.tickSeconds s.playback.bpm =
      some ({ t with clock := t.clock.advanceSeconds s.playback.tickSeconds s.playback.bpm },
        notices) := by
  refine ⟨_, Timeline.process_of_waiting fun slot hslot => ?_⟩
  have hmem : slot ∈ (opening s).slots := hslots ▸ hslot
  obtain rfl : slot = { event := .script (script s) } := List.mem_singleton.1 hmem
  exact ⟨rfl, decide_eq_true hearly, hstopped⟩

theorem eq_of_advanceSeconds_waiting {notices : List Notice}
    (h : t.advanceSeconds fuel s.playback.tickSeconds s.playback.bpm = some (u, notices)) :
    u = { t with clock := t.clock.advanceSeconds s.playback.tickSeconds s.playback.bpm } := by
  obtain ⟨_, hwaiting⟩ := advanceSeconds_of_waiting hslots hstopped hearly fuel
  have hmore := Timeline.process_mono (Nat.le_add_right fuel 1) h
  exact congrArg Prod.fst (Option.some.inj (hmore.symm.trans hwaiting))

end

/-- A show with two ticks. -/
def brief : Settings := { playback := { tickBeats := 0.5, lengthBeats := 1 } }

/-- The beats of the clock of the show. -/
def IsBriefBeat (b : Beat) : Prop := b = 0 ∨ b = 0.5 ∨ b = 1

/-- The figures of the show : its step, the sums of its ticks, and that it ends. -/
theorem figures_brief : brief.playback.step = 0.5 ∧ (0 : Beat) + 0.5 = 0.5 ∧
    (0.5 : Beat) + 0.5 = 1 ∧ (fired 3 brief).isSome = true := by
  decide +kernel

theorem early_brief {c : Clock} (hbeat : IsBriefBeat c.beat)
    (below : c.beat < brief.playback.lengthBeats) :
    (c.advanceSeconds brief.playback.tickSeconds brief.playback.bpm).beat <
        Placed.beat (script brief) ∧
      IsBriefBeat (c.advanceSeconds brief.playback.tickSeconds brief.playback.bpm).beat := by
  obtain ⟨hstep, hfirst, hsecond, -⟩ := figures_brief
  have hmove : (c.advanceSeconds brief.playback.tickSeconds brief.playback.bpm).beat =
      c.beat + 0.5 := congrArg (c.beat + ·) hstep
  rw [hmove]
  rcases hbeat with h | h | h <;> rw [h] at below ⊢
  · rw [hfirst]
    exact ⟨by decide, .inr (.inl rfl)⟩
  · rw [hsecond]
    exact ⟨by decide, .inr (.inr rfl)⟩
  · exact absurd below (by decide)

theorem of_reaches_brief (h : Reaches brief.playback (opening brief) t) :
    t.slots = (opening brief).slots ∧ IsBriefBeat t.clock.beat := by
  induction h with
  | start => exact ⟨rfl, .inl rfl⟩
  | tick _ below done ih =>
    obtain ⟨hearly, hbeat⟩ := early_brief ih.2 below
    rw [eq_of_advanceSeconds_waiting ih.1 rfl hearly done]
    exact ⟨ih.1, hbeat⟩

theorem exists_fired_iff_brief : brief.playback.lengthBeats.isFinite = true ∧
    (∀ t, Reaches brief.playback (opening brief) t → t.clock.beat < brief.playback.lengthBeats →
      ∃ fuel r, t.advanceSeconds fuel brief.playback.tickSeconds brief.playback.bpm = some r) ∧
    (∃ fuel firings, fired fuel brief = some firings) ∧
    (Beat.value brief.playback.lengthBeats : WithTop ℚ) ≤ Beat.ceiling brief.playback.step ∧
    (∀ t, Reaches brief.playback (opening brief) t → t.clock.beat < brief.playback.lengthBeats →
      t.clock.beat <
        (t.clock.advanceSeconds brief.playback.tickSeconds brief.playback.bpm).beat) := by
  have hfinite : brief.playback.lengthBeats.isFinite = true := by decide
  have hticks : ∀ t, Reaches brief.playback (opening brief) t →
      t.clock.beat < brief.playback.lengthBeats →
      ∃ fuel r, t.advanceSeconds fuel brief.playback.tickSeconds brief.playback.bpm = some r := by
    intro t ht below
    obtain ⟨hslots, hbeat⟩ := of_reaches_brief ht
    obtain ⟨notices, h⟩ := advanceSeconds_of_waiting hslots rfl (early_brief hbeat below).1 0
    exact ⟨_, _, h⟩
  obtain ⟨-, -, -, hsome⟩ := figures_brief
  have hends : ∃ fuel firings, fired fuel brief = some firings :=
    ⟨3, Option.isSome_iff_exists.1 hsome⟩
  obtain ⟨hiff, hmoves⟩ := exists_fired_iff hfinite hticks
  exact ⟨hfinite, hticks, hends, hiff.1 hends, hmoves (hiff.1 hends)⟩

/-- A show whose ticks are as short as can be, at a fast tempo. -/
def frozen : Settings := { playback := { bpm := 120, tickBeats := 5e-324, lengthBeats := 1 } }

/-- The figures of the show : its step, and that its settings have no flaw. -/
theorem figures_frozen : frozen.playback.step = 0 ∧ frozen.check.isOk = true := by
  decide +kernel

theorem clock_frozen : (opening frozen).clock.advanceSeconds frozen.playback.tickSeconds
    frozen.playback.bpm = (opening frozen).clock :=
  congrArg Clock.mk ((congrArg (0 + ·) figures_frozen.1).trans (by decide))

theorem early_frozen : ((opening frozen).clock.advanceSeconds frozen.playback.tickSeconds
    frozen.playback.bpm).beat < Placed.beat (script frozen) := by
  rw [clock_frozen]
  decide

theorem eq_of_reaches_frozen (h : Reaches frozen.playback (opening frozen) t) :
    t = opening frozen := by
  induction h with
  | start => rfl
  | tick _ _ done ih =>
    subst ih
    rw [eq_of_advanceSeconds_waiting rfl rfl early_frozen done, clock_frozen]

/-- The clock of the show stands still, and the show never ends. -/
theorem fired_frozen_eq_none : frozen.check.isOk = true ∧
    frozen.playback.lengthBeats.isFinite = true ∧
    (∀ t, Reaches frozen.playback (opening frozen) t → t.clock.beat < frozen.playback.lengthBeats →
      ∃ fuel r, t.advanceSeconds fuel frozen.playback.tickSeconds frozen.playback.bpm = some r) ∧
    (opening frozen).clock.beat < frozen.playback.lengthBeats ∧
    (opening frozen).clock.advanceSeconds frozen.playback.tickSeconds frozen.playback.bpm =
      (opening frozen).clock ∧
    ∀ fuel, fired fuel frozen = none := by
  have hfinite : frozen.playback.lengthBeats.isFinite = true := by decide
  have hbelow : (opening frozen).clock.beat < frozen.playback.lengthBeats := by decide
  refine ⟨figures_frozen.2, hfinite, fun t ht _ => ?_, hbelow, clock_frozen, fun fuel => ?_⟩
  · obtain rfl := eq_of_reaches_frozen ht
    obtain ⟨notices, h⟩ := advanceSeconds_of_waiting rfl rfl early_frozen 0
    exact ⟨_, _, h⟩
  · have hceiling : Beat.ceiling frozen.playback.step = 0 := by
      rw [figures_frozen.1, Beat.ceiling_of_isFinite Beat.isFinite_zero, Beat.value_zero,
        Beat.horizon, if_neg (lt_irrefl 0)]
      rfl
    have hpos : 0 < Beat.value frozen.playback.lengthBeats := by
      have := (Beat.lt_iff_value Beat.isFinite_zero hfinite).1 hbelow
      rwa [Beat.value_zero] at this
    have hbeyond : Beat.ceiling frozen.playback.step <
        (Beat.value frozen.playback.lengthBeats : WithTop ℚ) := by
      rw [hceiling]
      exact_mod_cast hpos
    rw [fired, drive_opening_eq_none hfinite hbeyond, Option.map_none]

end Playback

end Downbeat
