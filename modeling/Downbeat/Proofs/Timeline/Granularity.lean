import Mathlib.Data.List.Chain
import Downbeat.Proofs.Encounter.Blind
import Downbeat.Proofs.Timeline.Patience

/-!
# Coarse and fine ticks

A host may tick often or seldom. If its events are patient, the last tick of a run does what
all ticks of the run do (`Timeline.settles_of_tickAll`). So two runs from the same state that
end at the same beat leave the same events and have fired the same cues
(`Timeline.perm_of_tickAll`), though not in the same order, and not with the same notes of
when the host got to them.
-/

set_option linter.unusedSectionVars false

namespace Downbeat.Timeline

section

variable {ε : Type} [Placed ε] [Hosted ε ε]

/-! ## Runs -/

/-- Sets the clock to a beat, and ticks. -/
def tickAt (fuel : Nat) (now : Beat) (t : Timeline ε) : Option (Timeline ε × List Notice) :=
  process fuel { t with clock := ⟨now⟩ }

theorem process_eq_tickAt (fuel : Nat) (t : Timeline ε) :
    t.process fuel = t.tickAt fuel t.clock.beat := rfl

theorem advance_eq_tickAt (fuel : Nat) (delta : Beat) (t : Timeline ε) :
    t.advance fuel delta = t.tickAt fuel (t.clock.advance delta).beat := rfl

theorem advanceSeconds_eq_tickAt (fuel : Nat) (seconds bpm : Float) (t : Timeline ε) :
    t.advanceSeconds fuel seconds bpm = t.tickAt fuel (t.clock.advanceSeconds seconds bpm).beat :=
  rfl

/-- Ticks at one beat after another. -/
def tickAll (fuel : Nat) : List Beat → Timeline ε → Option (Timeline ε)
  | [], t => some t
  | now :: nows, t => do
    let (t, _) ← t.tickAt fuel now
    tickAll fuel nows t

/-- The time lines that a host can get to, beginning with an empty one. -/
inductive Reachable : Timeline ε → Prop
  | empty : Reachable {}
  | addAll {t : Timeline ε} (es : List ε) : Reachable t → Reachable (t.addAll es)
  | process {t t' : Timeline ε} {fuel : Nat} {notices : List Notice} :
      Reachable t → t.process fuel = some (t', notices) → Reachable t'
  | advance {t t' : Timeline ε} {fuel : Nat} {delta : Beat} {notices : List Notice} :
      Reachable t → t.advance fuel delta = some (t', notices) → Reachable t'
  | advanceSeconds {t t' : Timeline ε} {fuel : Nat} {seconds bpm : Float}
      {notices : List Notice} :
      Reachable t → t.advanceSeconds fuel seconds bpm = some (t', notices) → Reachable t'
  | takeFired {t : Timeline ε} : Reachable t → Reachable t.takeFired.2

theorem ended_of_mem_join {line : List (Slot ε)} {es : List ε}
    (hline : ∀ s ∈ line, s.ended = false) : ∀ s ∈ join line es, s.ended = false := by
  intro s hs
  rw [join_eq] at hs
  rcases List.mem_append.1 hs with hs | hs
  · exact hline s hs
  · obtain ⟨e, -, rfl⟩ := List.mem_map.1 hs
    rfl

/-- A tick removes the events that have ended. -/
theorem ended_of_tickAt {fuel : Nat} {now : Beat} {t t' : Timeline ε} {notices : List Notice}
    (h : t.tickAt fuel now = some (t', notices)) : ∀ s ∈ t'.slots, s.ended = false := by
  obtain ⟨_, _, _, _, -, -, rfl, -⟩ := exists_sweep_of_process h
  rw [← join_eq]
  refine ended_of_mem_join fun s hs => ?_
  have hover : s.isOver = false := by simpa using (List.mem_filter.1 hs).2
  exact (Bool.or_eq_false_iff.1 hover).1

theorem Reachable.ended {t : Timeline ε} (h : t.Reachable) : ∀ s ∈ t.slots, s.ended = false := by
  induction h with
  | empty => exact List.forall_mem_nil _
  | addAll es _ ih => exact ended_of_mem_join ih
  | process _ h => exact ended_of_tickAt h
  | advance _ h => exact ended_of_tickAt h
  | advanceSeconds _ h => exact ended_of_tickAt h
  | takeFired _ ih => exact ih

/-! ## The last tick -/

/-- The last tick of a run of patient events settles what was there before the run. -/
theorem settles_of_tickAll {W : ε → Prop} (hW : Patient W) {fuel : Nat} {nows : List Beat}
    {last : Beat} {t r : Timeline ε} (hle : ∀ now ∈ nows, now ≤ last)
    (hline : ∀ s ∈ t.slots, s.Holds W) (h : t.tickAll fuel (nows ++ [last]) = some r) :
    ∃ plans, Settles last t.slots r.slots plans ∧ r.plans = plans + t.plans := by
  induction nows generalizing t with
  | nil =>
    obtain ⟨⟨t', notices⟩, ht', hr⟩ := Option.bind_eq_some_iff.1 h
    obtain rfl : t' = r := Option.some.inj hr
    exact settles_of_process (t := { t with clock := ⟨last⟩ }) hW hline ht'
  | cons now nows ih =>
    obtain ⟨⟨t', notices⟩, ht', hr⟩ := Option.bind_eq_some_iff.1 h
    obtain ⟨plans, hsettles, hplans⟩ :=
      settles_of_process (t := { t with clock := ⟨now⟩ }) hW hline ht'
    have hline' : ∀ s ∈ t'.slots, s.Holds W := fun s hs =>
      hsettles.holds hW hline s (Multiset.mem_coe.2 hs)
    obtain ⟨plans', hsettles', hplans'⟩ :=
      ih (fun x hx => hle x (List.mem_cons_of_mem _ hx)) hline' hr
    refine ⟨plans + plans', ?_, ?_⟩
    · exact hsettles.of_le hW (hle now List.mem_cons_self) hline rfl hsettles'
    · rw [hplans', hplans]
      show plans' + (plans + t.plans) = plans + plans' + t.plans
      abel

end

/-! ## Two runs -/

section

variable {κ φ : Type} [Placed κ] [Hosted κ (Event κ φ)] [Subroutine φ (Event κ φ)]
  [Described φ]

theorem le_of_isChain {first last : Beat} {nows : List Beat}
    (h : (first :: (nows ++ [last])).IsChain (· ≤ ·)) : ∀ now ∈ nows, now ≤ last := by
  intro now hnow
  have hpairwise := (List.isChain_iff_pairwise.1 h).tail
  exact (List.pairwise_append.1 hpairwise).2.2 now hnow last (List.mem_singleton_self last)

/-- Two runs of a host over cues and scripts that end at the same beat leave the same events
behind, and the same cues have fired as planned, however often the host ticked. -/
theorem perm_of_tickAll {P : φ → Prop}
    (hP : Subroutine.Respects Context.SameScript (fun e : Event κ φ => e.Within P) P)
    {t : Timeline (Event κ φ)} (ht : t.Reachable) (hevents : ∀ s ∈ t.slots, s.event.Within P)
    {nows nows' : List Beat} {last : Beat}
    (hnows : (t.clock.beat :: (nows ++ [last])).IsChain (· ≤ ·))
    (hnows' : (t.clock.beat :: (nows' ++ [last])).IsChain (· ≤ ·)) {fuel fuel' : Nat}
    {r r' : Timeline (Event κ φ)} (hr : t.tickAll fuel (nows ++ [last]) = some r)
    (hr' : t.tickAll fuel' (nows' ++ [last]) = some r') :
    r.slots.Perm r'.slots ∧ (r.log.map Firing.plan).Perm (r'.log.map Firing.plan) := by
  have hW := Event.patient hP
  have hline : ∀ s ∈ t.slots, s.Holds (Event.Within P) := fun s hs =>
    ⟨hevents s hs, ht.ended s hs⟩
  obtain ⟨plans, hsettles, hplans⟩ := settles_of_tickAll hW (le_of_isChain hnows) hline hr
  obtain ⟨plans', hsettles', hplans'⟩ := settles_of_tickAll hW (le_of_isChain hnows') hline hr'
  obtain ⟨hslots, rfl⟩ := hsettles.unique hW hline hsettles'
  exact ⟨Multiset.coe_eq_coe.1 hslots, Multiset.coe_eq_coe.1 (hplans.trans hplans'.symm)⟩

end

/-- A script that brings on a script, and fails later. -/
def failing : Script Playback.ShowEvent Phase :=
  { start := 0
    runahead := 2
    queue := .ofList
      [.event (.script
        { start := 2
          runahead := 1
          queue := .ofList [.rest 2, .expand (.opening { loops := some 0 })] }),
      .rest 3, .cue (.light "dusk" "blue"), .rest (-1)] }

/-- A host with a script that fails and a cue. -/
def stage : Timeline Playback.ShowEvent :=
  ({} : Timeline Playback.ShowEvent).addAll
    [.script failing, .cue (.moveCamera "zoom" 2 4)]

theorem failing_within : (Event.script failing).Within fun _ => True := by
  refine .script rfl (fun e he => ?_) fun _ _ => trivial
  simp only [failing, Queue.toList_ofList, Entry.cue, List.mem_cons, Entry.event.injEq,
    List.not_mem_nil, or_false, reduceCtorEq, false_or] at he
  rcases he with rfl | rfl
  · refine .script rfl (fun e he => ?_) fun _ _ => trivial
    simp [Queue.toList_ofList] at he
  · exact .cue _

theorem perm_of_tickAll_stage : ∃ r r', stage.tickAll 30 ([0.5, 1, 2.5, 4, 6] ++ [9]) = some r ∧
    stage.tickAll 30 ([] ++ [9]) = some r' ∧
    r.slots.Perm r'.slots ∧ (r.log.map Firing.plan).Perm (r'.log.map Firing.plan) := by
  have hs : (stage.tickAll 30 ([0.5, 1, 2.5, 4, 6] ++ [9])).isSome := by decide +kernel
  have ht : (stage.tickAll 30 ([] ++ [9])).isSome := by decide +kernel
  obtain ⟨r, hr⟩ := Option.isSome_iff_exists.1 hs
  obtain ⟨r', hr'⟩ := Option.isSome_iff_exists.1 ht
  have hP : Subroutine.Respects Context.SameScript
      (fun e : Playback.ShowEvent => e.Within fun _ => True) fun _ : Phase => True :=
    Phase.respects _ .cue
  have hevents : ∀ s ∈ stage.slots, s.event.Within fun _ => True :=
    List.forall_mem_cons.2 ⟨failing_within, List.forall_mem_singleton.2 (.cue _)⟩
  exact ⟨r, r', hr, hr', perm_of_tickAll hP (.addAll _ .empty) hevents (by decide +kernel)
    (by decide +kernel) hr hr'⟩

end Downbeat.Timeline
