import Mathlib.Data.List.Flatten
import Downbeat.Proofs.Timeline.Arrival
import Downbeat.Proofs.Timeline.Round

/-!
# The ledger of a host

A host notes what has fired, and the notes may be taken from it at any time (`Errand`,
`Timeline.serve`). What has been taken at each time followed by what is still there is the ledger of
the host. Taking the notes changes nothing else, so the ledger is what a host would have noted from
which nothing was taken (`Timeline.run_of_serve`).

The clock of a host begins with zero and does not go back, whatever the steps are that it is told to
take. If only cues note something, and so once each when they start (`IsNote`), the ledger is in the
order of the clock, and it has one note for each cue that has started in the history of the host
(`Timeline.exists_ledger_of_serve`).
-/

set_option linter.unusedSectionVars false

namespace Downbeat

variable {α ε κ φ : Type}

/-! ## Taking the notes -/

/-- What can be done with a host from which the notes are taken from time to time. -/
inductive Errand (α ε : Type) where
  | deed (d : Deed α ε)
  | takeFired

/-- The deed that the errand is. -/
def Errand.deed? : Errand α ε → Option (Deed α ε)
  | deed d => some d
  | takeFired => none

section

variable [Placed ε] [Hosted ε ε]

namespace Timeline

/-- The host after some errands, and what was taken at each time. It is missing if a tick is more
work than its bound. -/
def serve : List (Errand α ε) → Timeline ε → Option (List (List Firing) × Timeline ε)
  | [], t => some ([], t)
  | .deed d :: errands, t => (t.perform d).bind (serve errands)
  | .takeFired :: errands, t =>
    (serve errands t.takeFired.2).map fun (taken, u) => (t.takeFired.1 :: taken, u)

/-- The host if the notes `old`, newest first, had not been taken. -/
def untaken (old : List Firing) (t : Timeline ε) : Timeline ε := { t with log := t.log ++ old }

/-- A tick adds to the notes, and does not look at them. -/
theorem process_untaken (fuel : Nat) (old : List Firing) (t : Timeline ε) :
    (t.untaken old).process fuel =
      (t.process fuel).map fun (u, notices) => (u.untaken old, notices) := by
  have hclock : (t.untaken old).clock = t.clock := rfl
  have hslots : (t.untaken old).slots = t.slots := rfl
  have hlog : (t.untaken old).log = t.log ++ old := rfl
  rw [process, process, hclock, hslots, hlog]
  cases visitAll fuel t.clock.beat fuel t.slots with
  | none => rfl
  | some visited =>
    simp only [Option.bind_eq_bind, Option.bind_some]
    cases runLine (Slot.retire fuel t.clock.beat) visited.1 with
    | none => rfl
    | some retired => simp [untaken, List.reverseAux_eq]

theorem perform_untaken (old : List Firing) (t : Timeline ε) (d : Deed α ε) :
    (t.untaken old).perform d = (t.perform d).map (untaken old) := by
  cases d with
  | add owner e => rfl
  | tick fuel k =>
    have h := process_untaken fuel old { t with clock := k.clock t.clock }
    rw [perform, perform, tick_eq, tick_eq, Option.map_map]
    exact (congrArg (Option.map (·.1)) h).trans (Option.map_map ..)

/-- Errands do what their deeds do to a host from which nothing is taken. -/
theorem run_of_serve {errands : List (Errand α ε)} {t u : Timeline ε} {taken : List (List Firing)}
    (h : t.serve errands = some (taken, u)) (old : List Firing) :
    (t.untaken old).run (errands.filterMap Errand.deed?) =
      some (u.untaken (taken.flatten.reverse ++ old)) := by
  induction errands generalizing t taken old with
  | nil =>
    cases h
    rfl
  | cons errand errands ih =>
    cases errand with
    | deed d =>
      obtain ⟨t', hd, hrest⟩ := Option.bind_eq_some_iff.1 h
      have hcons : (Errand.deed d :: errands).filterMap Errand.deed? =
          d :: errands.filterMap Errand.deed? := rfl
      rw [hcons, run, List.foldlM_cons, perform_untaken, hd]
      exact ih hrest old
    | takeFired =>
      obtain ⟨⟨more, _⟩, hrest, hresult⟩ := Option.map_eq_some_iff.1 h
      obtain ⟨rfl, rfl⟩ := Prod.mk.inj hresult
      have hcons : (Errand.takeFired :: errands).filterMap Errand.deed? =
          (errands.filterMap Errand.deed? : List (Deed α ε)) := rfl
      have hsame : t.takeFired.2.untaken (t.log ++ old) = t.untaken old := rfl
      rw [hcons, ← hsame, ih hrest (t.log ++ old)]
      simp [takeFired, fired]

/-! ## The clock -/

theorem forward_of_perform {d : Deed α ε} {t u : Timeline ε} (ht : 0 ≤ t.clock.beat)
    (h : t.perform d = some u) : t.clock.beat ≤ u.clock.beat ∧ t.log <:+ u.log := by
  cases d with
  | add owner e =>
    cases h
    exact ⟨Beat.le_refl (Beat.le_iff.1 ht).2.1, List.suffix_refl _⟩
  | tick fuel k =>
    obtain ⟨⟨_, notices⟩, htick, rfl⟩ := Option.map_eq_some_iff.1 h
    rw [tick_eq] at htick
    refine ⟨clock_of_process htick ▸ le_clock ht k, ?_⟩
    obtain ⟨_, _, _, _, -, -, rfl, -⟩ := exists_sweep_of_process htick
    exact List.suffix_append _ _

/-- Whatever is done with a host, its clock does not go back, and nothing is lost of what is
noted. -/
theorem forward_of_serve {errands : List (Errand α ε)} {t u : Timeline ε}
    {taken : List (List Firing)} (ht : 0 ≤ t.clock.beat)
    (h : t.serve errands = some (taken, u)) :
    t.clock.beat ≤ u.clock.beat ∧ t.fired <+: taken.flatten ++ u.fired := by
  induction errands generalizing t taken with
  | nil =>
    cases h
    exact ⟨Beat.le_refl (Beat.le_iff.1 ht).2.1, List.prefix_refl _⟩
  | cons errand errands ih =>
    cases errand with
    | deed d =>
      obtain ⟨t', hd, hrest⟩ := Option.bind_eq_some_iff.1 h
      obtain ⟨hclock, hlog⟩ := forward_of_perform ht hd
      obtain ⟨hclock', hlog'⟩ := ih (Beat.le_trans ht hclock) hrest
      exact ⟨Beat.le_trans hclock hclock', (List.reverse_prefix.2 hlog).trans hlog'⟩
    | takeFired =>
      obtain ⟨⟨more, _⟩, hrest, hresult⟩ := Option.map_eq_some_iff.1 h
      obtain ⟨rfl, rfl⟩ := Prod.mk.inj hresult
      refine ⟨(ih (t := t.takeFired.2) ht hrest).1, ?_⟩
      rw [List.flatten_cons, List.append_assoc]
      exact List.prefix_append _ _

end Timeline

/-! ## What an event notes -/

/-- An event notes something when it starts, as told by `note`, and at no other moment. It stays an
event of which this is so. -/
structure IsNote (note : Beat → ε → List Firing) : Prop where
  firings : ∀ {fuel m now e e' fx}, (Hosted.act fuel m now e : Option (ε × Effects ε)) =
    some (e', fx) → fx.firings = if m = .start then note now e else []
  kept : ∀ {fuel m now e e' fx}, (Hosted.act fuel m now e : Option (ε × Effects ε)) =
    some (e', fx) → ∀ b, note b e' = note b e
  fired : ∀ {now e}, ∀ f ∈ note now e, f.fired = now

variable {note : Beat → ε → List Firing} {fuel : Nat} {now : Beat}

namespace Slot

variable {s s' : Slot ε} {fx : Effects ε}

theorem notes_of_begin (hnote : IsNote note) (h : s.begin fuel now = some (s', fx)) :
    fx.firings = (if s.started then [] else note now s.event) ∧
      ∀ b, note b s'.event = note b s.event := by
  unfold Slot.begin at h
  split at h
  · rename_i hstarted
    cases h
    exact ⟨(if_pos hstarted).symm, fun _ => rfl⟩
  · rename_i hstarted
    obtain ⟨⟨e, fx'⟩, he, hs⟩ := Option.map_eq_some_iff.1 h
    cases hs
    exact ⟨(hnote.firings he).trans (if_neg hstarted).symm, hnote.kept he⟩

theorem notes_of_finish (hnote : IsNote note) (h : s.finish fuel now = some (s', fx)) :
    fx.firings = [] ∧ ∀ b, note b s'.event = note b s.event := by
  obtain ⟨⟨e, fx'⟩, he, hs⟩ := Option.map_eq_some_iff.1 h
  cases hs
  exact ⟨hnote.firings he, hnote.kept he⟩

theorem notes_of_attend (hnote : IsNote note) (h : s.attend fuel now = some (s', fx)) :
    fx.firings = (if s.started then [] else note now s.event) ∧
      ∀ b, note b s'.event = note b s.event := by
  simp only [attend, Option.bind_eq_bind, Option.bind_eq_some_iff] at h
  obtain ⟨⟨s₁, fx₁⟩, hbegin, ⟨s₂, fx₂⟩, hupdate, h⟩ := h
  cases h
  obtain ⟨hfirings, hkept⟩ := notes_of_begin hnote hbegin
  obtain ⟨⟨e, fx'⟩, he, hs⟩ := Option.map_eq_some_iff.1 hupdate
  cases hs
  have hnone : fx₂.firings = [] := hnote.firings he
  refine ⟨?_, fun b => (hnote.kept he b).trans (hkept b)⟩
  rw [Effects.firings_append, hfirings, hnone, List.append_nil]

/-- In a tick an event notes what it does if it starts, and does so in its visit. -/
theorem Fares.notes (hnote : IsNote note) {visit sweep : Slot ε × Effects ε}
    (h : s.Fares fuel now visit sweep) :
    visit.2.firings = (if s.started = false ∧ s.isEarly now = false then note now s.event else []) ∧
      sweep.2.firings = [] ∧ ∀ b, note b sweep.1.event = note b s.event := by
  have hif : s.IsDue now → (if s.started then [] else note now s.event) =
      if s.started = false ∧ s.isEarly now = false then note now s.event else [] := by
    intro hdue
    cases hstarted : s.started with
    | true => simp
    | false => simp [hdue hstarted]
  cases h with
  | early _ hearly => simp [hearly]
  | stays hdue hattend =>
    obtain ⟨hfirings, hkept⟩ := notes_of_attend hnote hattend
    exact ⟨hfirings.trans (hif hdue), rfl, hkept⟩
  | outlasts hdue hattend _ hfinish =>
    obtain ⟨hfirings, hkept⟩ := notes_of_attend hnote hattend
    obtain ⟨hnone, hkept'⟩ := notes_of_finish hnote hfinish
    refine ⟨?_, rfl, fun b => (hkept' b).trans (hkept b)⟩
    rw [Effects.firings_append, hnone, List.append_nil]
    exact hfirings.trans (hif hdue)
  | leaves hdue hattend _ _ hfinish =>
    obtain ⟨hfirings, hkept⟩ := notes_of_attend hnote hattend
    obtain ⟨hnone, hkept'⟩ := notes_of_finish hnote hfinish
    exact ⟨hfirings.trans (hif hdue), hnone, fun b => (hkept' b).trans (hkept b)⟩

end Slot

namespace Life

/-- What the event has noted over its life : on each day on which it was started, what it does. -/
def notes (note : Beat → ε → List Firing) (l : Life α ε) : List Firing :=
  (l.days.filter (.start ∈ ·.hooks)).flatMap fun d => note d.now l.slot.event

theorem IsNew.notes_eq_nil {tick : Nat} {l : Life α ε} (h : l.IsNew tick) : l.notes note = [] := by
  rw [notes, h.days]
  rfl

/-- An event is started once in its life, if ever. -/
theorem IsOrderly.notes_eq {l : Life α ε} (h : l.IsOrderly) :
    l.slot.started = false ∧ l.notes note = [] ∨ l.slot.started = true ∧
      ∃ d ∈ l.days, .start ∈ d.hooks ∧ l.notes note = note d.now l.slot.event := by
  cases hstarted : l.slot.started with
  | false =>
    have hnone : l.days.filter (.start ∈ ·.hooks) = [] := by
      rw [List.filter_eq_nil_iff]
      intro d hd
      simp [(h.unstarted hstarted d hd).2]
    exact .inl ⟨rfl, by rw [notes, hnone, List.flatMap_nil]⟩
  | true =>
    obtain ⟨early, first, later, hdays, hearly, ⟨-, hfirst⟩, hlater⟩ := h.started hstarted
    have hnone : early.filter (.start ∈ ·.hooks) = [] := by
      rw [List.filter_eq_nil_iff]
      intro d hd
      simp [(hearly d hd).2]
    have hnone' : later.filter (.start ∈ ·.hooks) = [] := by
      rw [List.filter_eq_nil_iff]
      intro d hd
      cases hover : d.after.isOver <;> simp [hlater d hd, Day.ending, hover]
    have hmem : .start ∈ first.hooks := hfirst ▸ List.mem_cons_self
    refine .inr ⟨rfl, first, ?_, hmem, ?_⟩
    · rw [hdays]
      exact List.mem_append_right _ List.mem_cons_self
    · rw [notes, hdays, List.filter_append, hnone, List.filter_cons_of_pos (by simpa using hmem),
        hnone', List.nil_append, List.flatMap_singleton]

/-- In a round an event is started just if it has not been and it is time. -/
theorem Part.IsPlayed.start_mem_hooks_iff {x : Part α ε} (h : x.IsPlayed fuel now)
    (hended : x.life.slot.ended = false) (tick : Nat) :
    .start ∈ (x.sweep.1.page tick now).hooks ↔
      x.life.slot.started = false ∧ x.life.slot.isEarly now = false := by
  obtain ⟨fx, fx', hvisited, hretired, -, -⟩ := h.tick
  have hended' : x.life.wake.slot.ended = false := hended
  have hstarted : x.life.wake.slot.started = x.life.slot.started := rfl
  have hearly : x.life.slot.isEarly now = decide (now < Placed.beat x.life.wake.slot.event) := rfl
  have hpage : (x.sweep.1.page tick now).hooks = x.sweep.1.slot.event.diary := rfl
  have hwake : x.life.wake.slot.event.diary = [] := rfl
  rw [hearly, hpage]
  obtain ⟨hnot, hlt, hslot⟩ | ⟨hdue, -, hdiary⟩ := Diarist.tick_cases hended' hvisited hretired
  · rw [hslot, hwake]
    simp [hlt]
  · rw [hdiary, hwake, hstarted]
    rw [hstarted] at hdue
    cases hs : x.life.slot.started with
    | false => simp [hdue hs]
    | true => cases x.sweep.1.slot.isOver <;> simp

/-- The part of an event in a round adds to its notes what it notes in its visit. -/
theorem Part.IsPlayed.notes (hnote : IsNote note) {x : Part α ε} (h : x.IsPlayed fuel now)
    (hended : x.life.slot.ended = false) (tick : Nat) :
    (x.after tick now).notes note = x.life.notes note ++ x.visit.2.firings ∧
      x.sweep.2.firings = [] ∧ ∀ f ∈ x.visit.2.firings, f.fired = now := by
  obtain ⟨hvisit, hsweep, hkept⟩ := (h.fares hended).notes hnote
  have hvisit : x.visit.2.firings = if x.life.slot.started = false ∧
      x.life.slot.isEarly now = false then note now x.life.slot.event else [] := hvisit
  have hhooks := h.start_mem_hooks_iff hended tick
  have hevent : ∀ b, note b (x.after tick now).slot.event = note b x.life.slot.event := hkept
  have hdays : (x.after tick now).days = x.life.days ++ [x.sweep.1.page tick now] := by
    rw [Part.after, Today.close, h.life_eq.2]
  refine ⟨?_, hsweep, ?_⟩
  · rw [hvisit]
    simp only [Life.notes, hdays, List.filter_append, List.flatMap_append, hevent]
    congr 1
    by_cases hs : .start ∈ (x.sweep.1.page tick now).hooks
    · rw [if_pos (hhooks.1 hs), List.filter_cons_of_pos (by simpa using hs)]
      exact List.flatMap_singleton _ _
    · rw [if_neg (mt hhooks.2 hs), List.filter_cons_of_neg (by simpa using hs)]
      rfl
  · rw [hvisit]
    split
    · exact hnote.fired
    · exact List.forall_mem_nil _

end Life

/-! ## Whole runs -/

namespace Chronicle

open Life

/-- The log is in the order of the clock, and is what the events have noted over their lives. -/
structure IsLedger (note : Beat → ε → List Firing) (c : Chronicle α ε) : Prop where
  forward : 0 ≤ c.clock.beat
  ordered : (c.log.map (·.2)).Pairwise fun f g => g.fired ≤ f.fired
  past : ∀ f ∈ c.log.map (·.2), f.fired ≤ c.clock.beat
  noted : (c.log.map (·.2)).Perm ((c.live ++ c.gone).flatMap (Life.notes note))

/-- Parting a list and mapping it, in any order. -/
theorem perm_parted {β γ : Type} (p : β → Bool) (g : β → List γ) (ls hs gs : List β)
    (hnone : hs.flatMap g = []) :
    ((ls.filter (!p ·) ++ hs ++ (gs ++ ls.filter p)).flatMap g).Perm
      (ls.flatMap g ++ gs.flatMap g) := by
  have hswap : (ls.filter (!p ·) ++ (gs ++ ls.filter p)).Perm
      ((ls.filter p ++ ls.filter (!p ·)) ++ gs) := by
    rw [← List.append_assoc]
    refine List.perm_append_comm.trans ?_
    rw [← List.append_assoc]
  have hparted := (hswap.trans ((List.filter_append_perm p ls).append_right gs)).flatMap_right g
  simpa only [List.flatMap_append, hnone, List.append_nil] using hparted

/-- What comes onto the line has noted nothing. -/
theorem notes_heirs (arrival : Nat) (xs : List (Today α ε × Effects ε)) :
    (heirs arrival xs).flatMap (Life.notes note) = [] :=
  List.flatMap_eq_nil_iff.2 fun l hl => (isNew_of_mem_heirs l hl).notes_eq_nil

/-- In a round the notes of the lives grow by what is noted in the visits. -/
theorem Round.perm_notes {c c' : Chronicle α ε} {parts : List (Part α ε)}
    (hround : c.Round fuel parts c') (hpart : ∀ x ∈ parts,
      (x.after c.ticks c.clock.beat).notes note = x.life.notes note ++ x.visit.2.firings) :
    ((c'.live ++ c'.gone).flatMap (Life.notes note)).Perm
      (parts.flatMap (·.visit.2.firings) ++ (c.live ++ c.gone).flatMap (Life.notes note)) := by
  have hlives : (parts.map (·.life)).flatMap (Life.notes note) =
      c.live.flatMap (Life.notes note) := by
    rw [hround.lives, List.flatMap_append, notes_heirs, List.append_nil]
  have hafter : ((parts.map (·.after c.ticks c.clock.beat)).flatMap (Life.notes note)).Perm
      (c.live.flatMap (Life.notes note) ++ parts.flatMap (·.visit.2.firings)) := by
    rw [← hlives, List.flatMap_map, List.flatMap_map, List.flatMap_congr hpart]
    exact (List.flatMap_append_perm _ _ _).symm
  have hbefore : (c.live ++ c.gone).flatMap (Life.notes note) =
      c.live.flatMap (Life.notes note) ++ c.gone.flatMap (Life.notes note) :=
    List.flatMap_append
  rw [hround.live, hround.gone, hbefore]
  refine (perm_parted _ _ _ _ _ (notes_heirs _ _)).trans ?_
  refine (hafter.append_right _).trans ?_
  rw [← List.append_assoc]
  exact List.perm_append_comm.append_right _

/-- If nothing is noted in the sweep, the log of a round is what is noted in the visits. -/
theorem map_snd_firings_round {parts : List (Part α ε)}
    (hsweep : ∀ x ∈ parts, x.sweep.2.firings = []) :
    (firings (parts.map (·.visit) ++ parts.map (·.sweep))).map (·.2) =
      parts.flatMap (·.visit.2.firings) := by
  rw [map_snd_firings, List.map_append, Effects.concat_append, Effects.firings_append,
    Effects.firings_concat, Effects.firings_concat, List.map_map, List.map_map, List.flatMap_map,
    List.flatMap_map]
  simp only [Function.comp_apply, List.flatMap_eq_nil_iff.2 hsweep, List.append_nil]

theorem IsLedger.process (hnote : IsNote note) {c c' : Chronicle α ε} (hc : c.IsLedger note)
    (hsound : c.IsSound) (h : c.process fuel = some c') : c'.IsLedger note := by
  have hclock : c'.clock = c.clock := by
    simp only [Chronicle.process, Option.bind_eq_bind, Option.bind_eq_some_iff] at h
    obtain ⟨_, -, _, -, h⟩ := h
    cases h
    rfl
  obtain ⟨parts, hround, hlog⟩ := exists_round_and_log h
  have hended := hround.ended fun l hl => (hsound.live l hl).ended
  have hpart : ∀ x ∈ parts, (x.after c.ticks c.clock.beat).notes note =
      x.life.notes note ++ x.visit.2.firings ∧ x.sweep.2.firings = [] ∧
        ∀ f ∈ x.visit.2.firings, f.fired = c.clock.beat :=
    fun x hx => (hround.played x hx).notes hnote (hended x hx) c.ticks
  -- what is noted in the round
  let new := parts.flatMap (·.visit.2.firings)
  have hnew : c'.log.map (·.2) = new.reverse ++ c.log.map (·.2) := by
    rw [hlog, List.map_append, List.map_reverse,
      map_snd_firings_round fun x hx => (hpart x hx).2.1]
  have hfired : ∀ f ∈ new.reverse, f.fired = c.clock.beat := by
    intro f hf
    obtain ⟨x, hx, hf⟩ := List.mem_flatMap.1 (List.mem_reverse.1 hf)
    exact (hpart x hx).2.2 f hf
  have hrefl : c.clock.beat ≤ c.clock.beat := Beat.le_refl (Beat.le_iff.1 hc.forward).2.1
  refine ⟨hclock ▸ hc.forward, ?_, ?_, ?_⟩
  · rw [hnew, List.pairwise_append]
    refine ⟨List.pairwise_of_forall_mem_list fun f hf g hg => ?_, hc.ordered, fun f hf g hg => ?_⟩
    · rw [hfired f hf, hfired g hg]
      exact hrefl
    · rw [hfired f hf]
      exact hc.past g hg
  · rw [hnew, hclock]
    refine List.forall_mem_append.2 ⟨fun f hf => ?_, hc.past⟩
    rw [hfired f hf]
    exact hrefl
  · rw [hnew]
    exact (new.reverse_perm.append hc.noted).trans
      (hround.perm_notes fun x hx => (hpart x hx).1).symm

theorem IsLedger.run (hnote : IsNote note) {deeds : List (Deed α ε)} {c c' : Chronicle α ε}
    (hc : c.IsLedger note) (hsound : c.IsSound) (h : c.run deeds = some c') :
    c'.IsLedger note := by
  induction deeds generalizing c with
  | nil =>
    cases h
    exact hc
  | cons d deeds ih =>
    rw [Chronicle.run, List.foldlM_cons] at h
    obtain ⟨c₁, hd, hrest⟩ := Option.bind_eq_some_iff.1 h
    refine ih ?_ (hsound.perform hd).1 hrest
    cases d with
    | add owner e =>
      cases hd
      refine ⟨hc.forward, hc.ordered, hc.past, ?_⟩
      have hnone : Life.notes note ({ owner, arrival := c.ticks, slot := { event := e } } :
          Life α ε) = [] := rfl
      simpa only [List.flatMap_append, List.flatMap_singleton, hnone, List.append_nil]
        using hc.noted
    | tick fuel k =>
      have hle := Timeline.le_clock hc.forward k
      refine IsLedger.process (c := { c with clock := k.clock c.clock }) hnote ?_
        ⟨hsound.live, hsound.gone⟩ hd
      exact ⟨Beat.le_trans hc.forward hle, hc.ordered,
        fun f hf => Beat.le_trans (hc.past f hf) hle, hc.noted⟩

end Chronicle

end

/-! ## Shows of which only the cues are noted -/

/-- What a cue notes when it starts. -/
def Event.note (now : Beat) (e : Event κ φ) : List Firing := (e.cue?.map (·.firing now)).toList

variable [Placed κ] [Hosted κ (Event κ φ)] [Subroutine φ (Event κ φ)] [Described φ]

/-- No guest notes anything. -/
def Event.OnlyCuesNote (κ φ : Type) [Placed κ] [Hosted κ (Event κ φ)] : Prop :=
  ∀ {fuel m now} {k k' : κ} {fx : Effects (Event κ φ)},
    Hosted.act fuel m now k = some (k', fx) → fx.firings = []

theorem Event.isNote (hguest : OnlyCuesNote κ φ) : IsNote (note : Beat → Event κ φ → _) where
  firings {fuel m now e e' fx} h := by
    cases e with
    | cue c => cases m <;> cases h <;> rfl
    | script s =>
      have hnone : (if m = .start then note now (script s) else []) = [] := ite_self _
      rw [hnone]
      rcases act_script h with ⟨-, -, rfl⟩ | ⟨-, s', -, htick⟩
      · rfl
      · obtain ⟨d, hd, -, hquiet⟩ := Script.exists_of_tick htick
        exact (Effects.mk.inj hquiet).2.1.trans (Script.drains_of_drainFrom hd).firings
    | guest k =>
      have hnone : (if m = .start then note now (guest k : Event κ φ) else []) = [] := ite_self _
      rw [hnone]
      obtain ⟨⟨k', fx'⟩, hk, hx⟩ := Option.map_eq_some_iff.1 h
      obtain ⟨-, rfl⟩ := Prod.mk.inj hx
      exact hguest hk
  kept h b := by rw [note, note, Slot.cue?_of_act h]
  fired {now e} f hf := by
    obtain ⟨c, -, rfl⟩ := Option.map_eq_some_iff.1 (Option.mem_toList.1 hf)
    rfl

/-- A cue has a note of the beat at which it was started, if ever, and no other. -/
theorem Life.IsOrderly.notes_of_cue {l : Life α (Event κ φ)} (h : l.IsOrderly) {q : Cue}
    (hq : l.slot.event = .cue q) :
    l.slot.started = false ∧ l.notes Event.note = [] ∨ l.slot.started = true ∧
      ∃ d ∈ l.days, .start ∈ d.hooks ∧ l.notes Event.note = [q.firing d.now] := by
  have hnote : ∀ now, Event.note now l.slot.event = [q.firing now] := by
    intro now
    rw [hq]
    rfl
  have hnotes : l.slot.started = false ∧ l.notes Event.note = [] ∨ l.slot.started = true ∧
      ∃ d ∈ l.days, .start ∈ d.hooks ∧ l.notes Event.note = Event.note d.now l.slot.event :=
    h.notes_eq
  simpa only [hnote] using hnotes

namespace Timeline

/-- The ledger of a host is in the order of its clock, and the chronicle `c` tells whose notes it
has : each cue that has started, on the line or gone, has one there. -/
structure IsLedger (errands : List (Errand α (Event κ φ))) (taken : List (List Firing))
    (t : Timeline (Event κ φ)) (c : Chronicle α (Event κ φ)) : Prop where
  history : c.IsHistory (errands.filterMap Errand.deed?) (t.untaken taken.flatten.reverse)
  ordered : (taken.flatten ++ t.fired).Pairwise fun f g => f.fired ≤ g.fired
  past : ∀ f ∈ taken.flatten ++ t.fired, f.fired ≤ t.clock.beat
  noted : (taken.flatten ++ t.fired).Perm ((c.live ++ c.gone).flatMap (Life.notes Event.note))
  once : ∀ l ∈ c.live ++ c.gone, ∀ q, l.slot.event = .cue q →
    l.slot.started = false ∧ l.notes Event.note = [] ∨ l.slot.started = true ∧
      ∃ d ∈ l.days, .start ∈ d.hooks ∧ l.notes Event.note = [q.firing d.now]

/-- Whatever steps a host is told to take, and whenever its notes are taken, its clock is a number,
is not before zero and does not go back, and what is once noted stays in the ledger. If only cues
note something, the ledger is in the order of the clock, and nothing is missing from it or in it
twice. -/
theorem exists_ledger_of_serve {errands : List (Errand α (Event κ φ))}
    {taken : List (List Firing)} {t : Timeline (Event κ φ)}
    (h : ({} : Timeline (Event κ φ)).serve errands = some (taken, t)) :
    t.clock.beat.isNaN = false ∧ 0 ≤ t.clock.beat ∧
      (∀ (further : List (Errand α (Event κ φ))) more u, t.serve further = some (more, u) →
        u.clock.beat.isNaN = false ∧ t.clock.beat ≤ u.clock.beat ∧
          taken.flatten ++ t.fired <+: (taken ++ more).flatten ++ u.fired) ∧
      (Event.OnlyCuesNote κ φ → ∃ c, IsLedger errands taken t c) := by
  have hbegin : (0 : Beat) ≤ ({} : Timeline (Event κ φ)).clock.beat :=
    Beat.le_refl (a := 0) (by rfl)
  have hzero : 0 ≤ t.clock.beat := (forward_of_serve hbegin h).1
  refine ⟨(Beat.le_iff.1 hzero).2.1, hzero, ?_, fun hguest => ?_⟩
  · intro further more u hfurther
    obtain ⟨hle, hkept⟩ := forward_of_serve hzero hfurther
    refine ⟨(Beat.le_iff.1 hle).2.1, hle, ?_⟩
    rw [List.flatten_append, List.append_assoc]
    exact (List.prefix_append_right_inj _).2 hkept
  · have hrun := run_of_serve h []
    rw [List.append_nil] at hrun
    obtain ⟨c, hc⟩ := Chronicle.history_of_run hrun
    have hempty : ({} : Chronicle α (Event κ φ)).IsLedger Event.note :=
      ⟨Beat.le_refl (by rfl), .nil, nofun, .nil⟩
    have hledger := hempty.run (Event.isNote hguest) ⟨nofun, nofun⟩ hc.run
    have hlog : taken.flatten ++ t.fired = (c.log.map (·.2)).reverse := by
      have hnotes : c.log.map (·.2) = t.log ++ taken.flatten.reverse :=
        congrArg Timeline.log hc.timeline
      rw [hnotes, List.reverse_append, List.reverse_reverse]
      rfl
    have hclock : c.clock = t.clock := congrArg Timeline.clock hc.timeline
    refine ⟨c, hc, ?_, ?_, ?_, ?_⟩
    · rw [hlog, List.pairwise_reverse]
      exact hledger.ordered
    · rw [hlog, ← hclock]
      exact fun f hf => hledger.past f (List.mem_reverse.1 hf)
    · rw [hlog]
      exact (List.reverse_perm _).trans hledger.noted
    · intro l hl q hq
      have horderly : l.IsOrderly := (List.mem_append.1 hl).elim
        (fun hl => (hc.live l hl).toIsOrderly) fun hl => (hc.gone l hl).toIsOrderly
      exact horderly.notes_of_cue hq

end Timeline

/-- A guest that looks on for some updates, and brings on a cue when it goes. -/
structure Onlooker where
  beat : Beat
  patience : Nat

instance : Placed Onlooker where
  beat k := k.beat
  moveTo b k := { k with beat := b }
  refusal _ _ := []

instance : Hosted Onlooker (Event Onlooker Phase) where
  width _ := 1 / 0
  isDone k := k.patience == 0
  act _ m _ k := some (
    { k with patience := if m = .update then k.patience - 1 else k.patience },
    { events := if m = .finish then [.cue (.light "gone" "white")] else [] })

namespace Timeline

/-- Cues, a script and an onlooker, steps back and steps that are no numbers, two steps to the end
of the line, and takes in between. -/
def unsteady : List (Errand Unit (Event Onlooker Phase)) :=
  [.deed (.add () (.cue { Cue.light "dusk" "blue" with beat := 1 })),
    .deed (.add () (.guest ⟨0, 3⟩)),
    .deed (.add () (.script {
      start := 1
      runahead := 1
      queue := .ofList [.cue (.light "dawn" "red"), .rest 2, .cue (.moveCamera "zoom" 2 1),
        .stop] })),
    .deed (.tick 20 (.advance 1.5)), .takeFired, .deed (.tick 20 (.advance (-3))),
    .deed (.tick 20 (.advance (0 / 0))), .takeFired, .deed (.tick 20 (.advanceSeconds (1 / 0) 0)),
    .deed (.tick 20 (.advanceTo (1 / 0))), .deed (.tick 20 (.advanceTo (1 / 0))), .takeFired,
    .deed (.add () (.cue (.playStem "late" "drums"))), .deed (.tick 20 .process)]

theorem exists_ledger_of_serve_unsteady : Event.OnlyCuesNote Onlooker Phase ∧
    ∃ taken t, ({} : Timeline (Event Onlooker Phase)).serve unsteady = some (taken, t) ∧
      taken.map (·.map (·.label)) = [["dusk", "dawn"], [], ["gone", "zoom"]] ∧
      t.fired.map (·.label) = ["late"] ∧ (t.clock.beat == 1 / 0) = true ∧
      ∃ c : Chronicle Unit (Event Onlooker Phase), IsLedger unsteady taken t c := by
  have hguest : Event.OnlyCuesNote Onlooker Phase := by
    intro fuel m now k k' fx h
    cases h
    rfl
  have hend : (({} : Timeline (Event Onlooker Phase)).serve unsteady).map (fun (taken, t) =>
      (taken.map (·.map (·.label)), t.fired.map (·.label), t.clock.beat == 1 / 0)) =
        some ([["dusk", "dawn"], [], ["gone", "zoom"]], ["late"], true) := by
    decide +kernel
  obtain ⟨⟨taken, t⟩, hserve, hfacts⟩ := Option.map_eq_some_iff.1 hend
  obtain ⟨htaken, hrest⟩ := Prod.mk.inj hfacts
  obtain ⟨hfired, hclock⟩ := Prod.mk.inj hrest
  obtain ⟨-, -, -, hledger⟩ := exists_ledger_of_serve hserve
  exact ⟨hguest, taken, t, hserve, htaken, hfired, hclock, hledger hguest⟩

end Timeline

end Downbeat
