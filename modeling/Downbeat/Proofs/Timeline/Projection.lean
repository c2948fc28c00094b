import Downbeat.Timeline

/-!
# Events that carry more

Events may carry more than what their host has to know of them (`Projects`). Without it they do the
same (`Projects.visit_map`, `Projects.retire_map`), and so does a host that runs them
(`Projects.process_map`).
-/

set_option linter.unusedSectionVars false

namespace Downbeat

/-- The effects with the events that they bring on in another form. -/
def Effects.map {ε δ : Type} (f : ε → δ) (fx : Effects ε) : Effects δ :=
  ⟨fx.events.map f, fx.firings, fx.notices⟩

@[simp] theorem Effects.map_empty {ε δ : Type} (f : ε → δ) : ({} : Effects ε).map f = {} := rfl

@[simp] theorem Effects.map_append {ε δ : Type} (f : ε → δ) (a b : Effects ε) :
    (a ++ b).map f = a.map f ++ b.map f := by
  show Effects.map f (Effects.append a b) = Effects.append (a.map f) (b.map f)
  simp [Effects.map, Effects.append]

/-- The slot with its event in another form. -/
def Slot.map {ε δ : Type} (f : ε → δ) (s : Slot ε) : Slot δ := ⟨f s.event, s.started, s.ended⟩

/-- The host with its events in another form. -/
def Timeline.map {ε δ : Type} (f : ε → δ) (t : Timeline ε) : Timeline δ :=
  ⟨t.clock, t.slots.map (Slot.map f), t.log⟩

variable {δ ε : Type} [Placed δ] [Hosted δ δ] [Placed ε] [Hosted ε ε]

/-- Taking away by `f` what an event carries changes nothing in what it does. -/
structure Projects (f : δ → ε) : Prop where
  beat : ∀ d, Placed.beat (f d) = Placed.beat d
  width : ∀ d, Hosted.width ε (f d) = Hosted.width δ d
  isDone : ∀ d, Hosted.isDone ε (f d) = Hosted.isDone δ d
  act : ∀ fuel m now d, (Hosted.act fuel m now (f d) : Option (ε × Effects ε)) =
    (Hosted.act fuel m now d).map (Prod.map f (Effects.map f))

namespace Projects

variable {f : δ → ε}

/-! ## Slots -/

theorem begin_map (hf : Projects f) (fuel : Nat) (now : Beat) (s : Slot δ) :
    (s.map f).begin fuel now = (s.begin fuel now).map (Prod.map (Slot.map f) (Effects.map f)) := by
  obtain ⟨d, _ | _, ended⟩ := s
  · simp only [Slot.begin, Slot.map, hf.act, Bool.false_eq_true, if_false, Option.map_map]
    rfl
  · rfl

theorem update_map (hf : Projects f) (fuel : Nat) (now : Beat) (s : Slot δ) :
    (s.map f).update fuel now =
      (s.update fuel now).map (Prod.map (Slot.map f) (Effects.map f)) := by
  simp only [Slot.update, Slot.map, hf.act, Option.map_map]
  rfl

theorem finish_map (hf : Projects f) (fuel : Nat) (now : Beat) (s : Slot δ) :
    (s.map f).finish fuel now =
      (s.finish fuel now).map (Prod.map (Slot.map f) (Effects.map f)) := by
  simp only [Slot.finish, Slot.map, hf.act, Option.map_map]
  rfl

theorem run_map (hf : Projects f) (fuel : Nat) (now : Beat) (s : Slot δ) :
    (s.map f).run fuel now = (s.run fuel now).map (Prod.map (Slot.map f) (Effects.map f)) := by
  rw [Slot.run, Slot.run, hf.begin_map]
  cases s.begin fuel now with
  | none => rfl
  | some x =>
    obtain ⟨s, fx⟩ := x
    simp only [Option.map_some, Option.bind_eq_bind, Option.bind_some, Prod.map]
    have hended : (s.map f).ended = s.ended := rfl
    rw [hended, hf.update_map]
    split
    · rfl
    · cases s.update fuel now with
      | none => rfl
      | some y =>
        obtain ⟨s, fx'⟩ := y
        simp only [Option.map_some, Option.bind_some, Prod.map]
        have hout : (s.map f).isOut now = s.isOut now := by
          rw [Slot.isOut, Slot.isOut, ← hf.beat, ← hf.width]
          rfl
        rw [hout, hf.finish_map]
        split
        · simp
        · cases s.finish fuel now with
          | none => rfl
          | some z => simp

theorem visit_map (hf : Projects f) (fuel : Nat) (now : Beat) (s : Slot δ) :
    (s.map f).visit fuel now = (s.visit fuel now).map (Prod.map (Slot.map f) (Effects.map f)) := by
  have hearly : (!(s.map f).started && (s.map f).isEarly now) = (!s.started && s.isEarly now) := by
    rw [Slot.isEarly, Slot.isEarly, ← hf.beat]
    rfl
  rw [Slot.visit, Slot.visit, hearly, hf.run_map]
  split <;> rfl

theorem retire_map (hf : Projects f) (fuel : Nat) (now : Beat) (s : Slot δ) :
    (s.map f).retire fuel now =
      (s.retire fuel now).map (Prod.map (Slot.map f) (Effects.map f)) := by
  have hgo : ((s.map f).started && !(s.map f).ended && Hosted.isDone ε (s.map f).event) =
      (s.started && !s.ended && Hosted.isDone δ s.event) := by
    rw [← hf.isDone]
    rfl
  rw [Slot.retire, Slot.retire, hgo, hf.finish_map]
  split <;> rfl

theorem isOver_map (hf : Projects f) (s : Slot δ) : (s.map f).isOver = s.isOver := by
  rw [Slot.isOver, Slot.isOver, ← hf.isDone]
  rfl

/-! ## Hosts -/

theorem runLine_map {go : Slot ε → Option (Slot ε × Effects ε)}
    {go' : Slot δ → Option (Slot δ × Effects δ)}
    (hgo : ∀ s, go (s.map f) = (go' s).map (Prod.map (Slot.map f) (Effects.map f)))
    (line : List (Slot δ)) : Timeline.runLine go (line.map (Slot.map f)) =
      (Timeline.runLine go' line).map (Prod.map (List.map (Slot.map f)) (Effects.map f)) := by
  induction line with
  | nil => rfl
  | cons s line ih =>
    rw [List.map_cons, Timeline.runLine, Timeline.runLine, hgo, ih]
    cases go' s with
    | none => rfl
    | some x =>
      cases Timeline.runLine go' line with
      | none => rfl
      | some y => simp

theorem fresh_map (f : δ → ε) (es : List δ) :
    Timeline.fresh (es.map f) = (Timeline.fresh es).map (Slot.map f) := by
  simp [Timeline.fresh, Slot.map, Function.comp_def]

theorem visitAll_map (hf : Projects f) (fuel : Nat) (now : Beat) (waves : Nat)
    (line : List (Slot δ)) : Timeline.visitAll fuel now waves (line.map (Slot.map f)) =
      (Timeline.visitAll fuel now waves line).map
        (Prod.map (List.map (Slot.map f)) (Effects.map f)) := by
  induction waves generalizing line with
  | zero => rfl
  | succ waves ih =>
    rw [Timeline.visitAll, Timeline.visitAll, runLine_map (hf.visit_map fuel now)]
    cases Timeline.runLine (Slot.visit fuel now) line with
    | none => rfl
    | some x =>
      obtain ⟨line, fx⟩ := x
      have hempty : (fx.map f).events.isEmpty = fx.events.isEmpty := List.isEmpty_map
      simp only [Option.map_some, Option.bind_eq_bind, Option.bind_some, Prod.map, hempty]
      split
      · rfl
      · have hfresh : Timeline.fresh (fx.map f).events =
            (Timeline.fresh fx.events).map (Slot.map f) := fresh_map f fx.events
        rw [hfresh, ih]
        cases Timeline.visitAll fuel now waves (Timeline.fresh fx.events) with
        | none => rfl
        | some y =>
          have hquiet : ({ fx.map f with events := [] } : Effects ε) =
              Effects.map f { fx with events := [] } := rfl
          simp [hquiet]

/-- A tick is the same without what the events carry. -/
theorem process_map (hf : Projects f) (fuel : Nat) (t : Timeline δ) :
    (t.map f).process fuel = (t.process fuel).map (Prod.map (Timeline.map f) id) := by
  rw [Timeline.process, Timeline.process, Timeline.map, hf.visitAll_map]
  cases Timeline.visitAll fuel t.clock.beat fuel t.slots with
  | none => rfl
  | some x =>
    obtain ⟨line, fx⟩ := x
    simp only [Option.map_some, Option.bind_eq_bind, Option.bind_some, Prod.map,
      runLine_map (hf.retire_map fuel t.clock.beat)]
    cases Timeline.runLine (Slot.retire fuel t.clock.beat) line with
    | none => rfl
    | some y =>
      obtain ⟨line, fx'⟩ := y
      have hover : (fun s : Slot δ => !(s.map f).isOver) = fun s => !s.isOver := by
        funext s
        rw [hf.isOver_map]
      have hslots : Timeline.join ((line.map (Slot.map f)).filter (!·.isOver)) (fx'.map f).events =
          (Timeline.join (line.filter (!·.isOver)) fx'.events).map (Slot.map f) := by
        rw [Timeline.join_eq, Timeline.join_eq, List.map_append, List.filter_map, Effects.map,
          fresh_map, Function.comp_def, hover]
      simp only [Option.map_some, Option.bind_some, Option.pure_def, Prod.map, ← Effects.map_append,
        hslots, List.length_map, Timeline.map]
      rfl

end Projects

end Downbeat
