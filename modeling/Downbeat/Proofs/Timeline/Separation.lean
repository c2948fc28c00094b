import Mathlib.Data.List.Basic
import Downbeat.Proofs.Timeline.Chronicle
import Downbeat.Rehearsal.Cast

/-!
# Events do not interfere

The events on a time line belong to owners, and what an event brings on belongs to its owner.
What an event does is a matter of its own state and of the clock, so the events of some of the
owners do on a shared time line just what they do without the others : leaving out the others
at the end of a run (`Chronicle.only`) is the same as leaving them out from the start
(`Chronicle.run_only`). This is so for the order of the events and of what fired as well,
since the others stand between but never change who comes first
(`Chronicle.timeline_run_only`).
-/

set_option linter.unusedSectionVars false

namespace Downbeat

variable {α ε : Type} [Placed ε] [Hosted ε ε]

/-- The deed is not done on behalf of one of the other owners. -/
def Deed.isOf (p : α → Bool) : Deed α ε → Bool
  | .add owner _ => p owner
  | .tick .. => true

namespace Chronicle

open Life

/-- The chronicle of some of the owners. -/
def only (p : α → Bool) (c : Chronicle α ε) : Chronicle α ε :=
  { c with
    live := c.live.filter (p ·.owner)
    gone := c.gone.filter (p ·.owner)
    log := c.log.filter (p ·.1) }

/-- The time line with an owner for each event on it and for each firing in its log. -/
def ofTimeline (t : Timeline ε) (owners logOwners : List α) : Chronicle α ε where
  clock := t.clock
  live := (owners.zip t.slots).map fun (owner, slot) => { owner, arrival := 0, slot }
  log := logOwners.zip t.log

theorem timeline_ofTimeline {t : Timeline ε} {owners logOwners : List α}
    (hslots : owners.length = t.slots.length) (hlog : logOwners.length = t.log.length) :
    (ofTimeline t owners logOwners).timeline = t := by
  simp [ofTimeline, timeline, Function.comp_def, List.map_snd_zip, hslots, hlog]

/-! ## One wave and one tick -/

/-- Leaving out some members of a line leaves out what they do. -/
theorem mapM_filter {β γ : Type} {f : β → Option γ} {q : β → Bool} {r : γ → Bool}
    (hf : ∀ x y, f x = some y → r y = q x) {xs : List β} {ys : List γ}
    (h : xs.mapM f = some ys) : (xs.filter q).mapM f = some (ys.filter r) := by
  induction xs generalizing ys with
  | nil =>
    cases h
    rfl
  | cons x xs ih =>
    simp only [List.mapM_cons, Option.bind_eq_bind, Option.bind_eq_some_iff] at h
    obtain ⟨y, hy, ys', hys, h⟩ := h
    cases h
    have hr : r y = q x := hf x y hy
    cases hq : q x with
    | true =>
      rw [List.filter_cons_of_pos hq, List.filter_cons_of_pos (hr.trans hq), List.mapM_cons, hy,
        ih hys]
      rfl
    | false =>
      rw [List.filter_cons_of_neg (by simp [hq]), List.filter_cons_of_neg (by simp [hr, hq])]
      exact ih hys

theorem mapM_act_filter (p : α → Bool)
    {go : Slot (Diarist ε) → Option (Slot (Diarist ε) × Effects (Diarist ε))}
    {xs : List (Today α ε)} {ys : List (Today α ε × Effects ε)}
    (h : xs.mapM (Today.act go) = some ys) :
    (xs.filter (p ·.life.owner)).mapM (Today.act go) =
      some (ys.filter (p ·.1.life.owner)) := by
  refine mapM_filter (fun x y hy => ?_) h
  obtain ⟨-, -, rfl⟩ := Option.map_eq_some_iff.1 hy
  rfl

/-- Leaving out some members leaves out what is theirs. -/
theorem flatMap_filter {β γ : Type} {f : β → List γ} {q : β → Bool} {r : γ → Bool}
    (hf : ∀ x, ∀ y ∈ f x, r y = q x) (xs : List β) :
    (xs.filter q).flatMap f = (xs.flatMap f).filter r := by
  induction xs with
  | nil => rfl
  | cons x xs ih =>
    rw [List.flatMap_cons, List.filter_append, ← ih]
    cases hq : q x with
    | true =>
      rw [List.filter_cons_of_pos hq, List.flatMap_cons,
        List.filter_eq_self.2 fun y hy => (hf x y hy).trans hq]
    | false =>
      have hnone : (f x).filter r = [] :=
        List.filter_eq_nil_iff.2 fun y hy => by simp [hf x y hy, hq]
      rw [List.filter_cons_of_neg (by simp [hq]), hnone, List.nil_append]

theorem heirs_filter (p : α → Bool) (arrival : Nat) (xs : List (Today α ε × Effects ε)) :
    heirs arrival (xs.filter (p ·.1.life.owner)) =
      (heirs arrival xs).filter (p ·.owner) := by
  refine flatMap_filter (fun x y hy => ?_) xs
  obtain ⟨e, -, rfl⟩ := List.mem_map.1 hy
  rfl

theorem firings_filter (p : α → Bool) (xs : List (Today α ε × Effects ε)) :
    firings (xs.filter (p ·.1.life.owner)) = (firings xs).filter (p ·.1) := by
  refine flatMap_filter (fun x y hy => ?_) xs
  obtain ⟨f, -, rfl⟩ := List.mem_map.1 hy
  rfl

theorem map_wake_filter (p : α → Bool) (ls : List (Life α ε)) :
    (ls.filter (p ·.owner)).map wake = (ls.map wake).filter (p ·.life.owner) := by
  rw [List.filter_map]
  rfl

theorem visitAll_filter (p : α → Bool) {fuel tick waves : Nat} {now : Beat}
    {line : List (Today α ε)} {seen : List (Today α ε × Effects ε)}
    (h : visitAll fuel tick now waves line = some seen) :
    visitAll fuel tick now waves (line.filter (p ·.life.owner)) =
      some (seen.filter (p ·.1.life.owner)) := by
  induction waves generalizing line seen with
  | zero => cases h
  | succ waves ih =>
    simp only [visitAll, Option.bind_eq_bind, Option.bind_eq_some_iff] at h
    obtain ⟨first, hfirst, h⟩ := h
    rw [visitAll, mapM_act_filter p hfirst]
    simp only [Option.bind_eq_bind, Option.bind_some, heirs_filter]
    split at h
    · rename_i hnone
      cases h
      rw [List.isEmpty_iff.1 hnone]
      rfl
    · obtain ⟨later, hlater, h⟩ := Option.bind_eq_some_iff.1 h
      cases h
      have hlater' := ih hlater
      rw [← map_wake_filter] at hlater'
      rw [List.filter_append]
      split
      · -- the others go on alone
        rename_i hnone
        rw [List.isEmpty_iff.1 hnone] at hlater'
        have hnil : later.filter (p ·.1.life.owner) = [] := by
          cases waves with
          | zero => cases hlater
          | succ waves => exact (Option.some.inj hlater').symm
        rw [hnil, List.append_nil]
        rfl
      · rw [hlater']
        rfl

/-- In a tick the others make no difference. -/
theorem process_only (p : α → Bool) {fuel : Nat} {c c' : Chronicle α ε}
    (h : c.process fuel = some c') : (c.only p).process fuel = some (c'.only p) := by
  simp only [process, Option.bind_eq_bind, Option.bind_eq_some_iff] at h
  obtain ⟨seen, hseen, retired, hretired, h⟩ := h
  cases h
  have hseen' : visitAll fuel (c.only p).ticks (c.only p).clock.beat fuel
      ((c.only p).live.map wake) = some (seen.filter (p ·.1.life.owner)) := by
    rw [only, map_wake_filter]
    exact visitAll_filter p hseen
  have hretired' : ((seen.filter (p ·.1.life.owner)).map (·.1)).mapM
      (Today.act (Slot.retire fuel c.clock.beat)) =
        some (retired.filter (p ·.1.life.owner)) := by
    rw [← mapM_act_filter p hretired, List.filter_map]
    rfl
  rw [process, hseen']
  simp only [Option.bind_eq_bind, Option.bind_some]
  rw [show (c.only p).clock = c.clock from rfl, hretired']
  have hlives : ((retired.filter (p ·.1.life.owner)).map
        fun x => x.1.close c.ticks c.clock.beat) =
      (retired.map fun x => x.1.close c.ticks c.clock.beat).filter (p ·.owner) := by
    rw [List.filter_map]
    rfl
  simp only [Option.bind_some, Option.pure_def, only, hlives, heirs_filter,
    ← List.filter_append, firings_filter, ← List.filter_reverse]
  simp only [List.filter_append, List.filter_filter, Bool.and_comm]

/-! ## Whole runs -/

theorem perform_only (p : α → Bool) {d : Deed α ε} {c c' : Chronicle α ε}
    (h : c.perform d = some c') :
    (c.only p).run ([d].filter (Deed.isOf p)) = some (c'.only p) := by
  cases d with
  | tick fuel k =>
    have hall : [Deed.tick fuel k].filter (Deed.isOf (ε := ε) p) = [.tick fuel k] := rfl
    have htick : (c.only p).perform (.tick fuel k) = some (c'.only p) := process_only p h
    rw [hall, run, List.foldlM_cons, htick]
    rfl
  | add owner e =>
    cases h
    cases hp : p owner with
    | true =>
      have hall : [Deed.add owner e].filter (Deed.isOf p) = [.add owner e] := by
        simp [Deed.isOf, hp]
      rw [hall]
      simp [run, perform, only, hp]
    | false =>
      have hnone : [Deed.add owner e].filter (Deed.isOf p) = [] := by
        simp [Deed.isOf, hp]
      rw [hnone]
      simp [run, only, hp]

/-- Leaving out the others at the end is leaving them out from the start. -/
theorem run_only (p : α → Bool) {deeds : List (Deed α ε)} {c c' : Chronicle α ε}
    (h : c.run deeds = some c') :
    (c.only p).run (deeds.filter (Deed.isOf p)) = some (c'.only p) := by
  induction deeds generalizing c with
  | nil =>
    cases h
    rfl
  | cons d deeds ih =>
    rw [run, List.foldlM_cons] at h
    obtain ⟨c₁, hd, hrest⟩ := Option.bind_eq_some_iff.1 h
    have hsplit : (d :: deeds).filter (Deed.isOf p) =
        [d].filter (Deed.isOf p) ++ deeds.filter (Deed.isOf p) := by
      rw [← List.filter_append, List.singleton_append]
    have hfirst := perform_only p hd
    rw [run] at hfirst ⊢
    rw [hsplit, List.foldlM_append, hfirst]
    exact ih hrest

/-- On a time line on which each event and each firing has an owner, the events of some of the
owners, and all that they bring on, are in the end just where they are, and have fired just
what they have, if the others have never been there. -/
theorem timeline_run_only {t t' : Timeline ε} {owners logOwners : List α}
    (hslots : owners.length = t.slots.length) (hlog : logOwners.length = t.log.length)
    {deeds : List (Deed α ε)} (h : t.run deeds = some t') (p : α → Bool) :
    ∃ c : Chronicle α ε, (ofTimeline t owners logOwners).run deeds = some c ∧
      c.timeline = t' ∧
      ((ofTimeline t owners logOwners).only p).timeline.run (deeds.filter (Deed.isOf p)) =
        some (c.only p).timeline := by
  have hrun : ((ofTimeline t owners logOwners).run deeds).map timeline = some t' := by
    rw [timeline_run, timeline_ofTimeline hslots hlog]
    exact h
  obtain ⟨c, hc, ht'⟩ := Option.map_eq_some_iff.1 hrun
  refine ⟨c, hc, ht', ?_⟩
  rw [← timeline_run, run_only p hc, Option.map_some]

/-- A stand-in that brings on a cue and another stand-in when it starts, and leaves before its
end. -/
def opener : Act :=
  .guest (.playing "opener" 0 8 2 false
    [.cue (.playStem "in" "drums"), .guest (.playing "second" 1 1 (0 / 0) false [] [] [])] []
    [.cue (.light "out" "blue")])

/-- A host with two stand-ins, a cue between them, and one cue that has fired. -/
def shared : Timeline Act where
  slots := [{ event := opener }, { event := .cue (.moveCamera "zoom" 2 4) }, { event := opener }]
  log := [⟨"before", .stem "bass", 0, 0⟩]

/-- Some ticks, and one more stand-in in between. -/
def sharing : List (Deed Bool Act) :=
  [.tick 20 .process, .tick 20 (.advance 1), .add false opener, .tick 20 (.advanceTo 2),
    .tick 20 (.advanceSeconds 0.5 120)]

theorem timeline_run_only_shared : ∃ t',
    [true, false, true].length = shared.slots.length ∧ [false].length = shared.log.length ∧
    shared.run sharing = some t' ∧ ∃ c : Chronicle Bool Act,
      (ofTimeline shared [true, false, true] [false]).run sharing = some c ∧ c.timeline = t' ∧
      ((ofTimeline shared [true, false, true] [false]).only id).timeline.run
        (sharing.filter (Deed.isOf id)) = some (c.only id).timeline := by
  have hslots : [true, false, true].length = shared.slots.length := rfl
  have hlog : [false].length = shared.log.length := rfl
  have hs : (shared.run sharing).isSome := by decide +kernel
  obtain ⟨t', ht'⟩ := Option.isSome_iff_exists.1 hs
  exact ⟨t', hslots, hlog, ht', timeline_run_only hslots hlog ht' id⟩

end Chronicle

end Downbeat
