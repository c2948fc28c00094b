import Mathlib.Data.List.Basic
import Downbeat.Proofs.Timeline.Chronicle
import Downbeat.Rehearsal.Cast

/-!
# The life of an event

Each tick visits each event on the time line once. What one tick does to one event is
`Life.TicksTo` : the event is early and is left alone, or it is started if it has not been,
updated, and ended if it is over by then (`Diarist.tick_cases`). From this the course of a whole
life follows, tick by tick (`Life.IsLive.step`) : it begins with days on which the event is
early, goes on with the day of its start and days of one update each, and has its end on the day
that leaves it over, which is its last. `Chronicle.history_of_run` says so of all lives in
any run of a host.
-/

set_option linter.unusedSectionVars false

namespace Downbeat

variable {α ε : Type} [Placed ε] [Hosted ε ε]

/-! ## One tick of one event -/

namespace Diarist

theorem act_eq {fuel : Nat} {m : Moment} {now : Beat} {d d' : Diarist ε}
    {fx : Effects (Diarist ε)} (h : Hosted.act fuel m now d = some (d', fx)) :
    d'.diary = d.diary ++ [m] := by
  obtain ⟨x, -, hx⟩ := Option.map_eq_some_iff.1 h
  obtain ⟨rfl, -⟩ := Prod.mk.inj hx
  rfl

theorem begin_diary {fuel : Nat} {now : Beat} {s s' : Slot (Diarist ε)}
    {fx : Effects (Diarist ε)} (h : s.begin fuel now = some (s', fx)) :
    s'.started = true ∧ s'.ended = s.ended ∧
      s'.event.diary = s.event.diary ++ if s.started then [] else [.start] := by
  unfold Slot.begin at h
  split at h
  · rename_i hstarted
    cases h
    simp [hstarted]
  · rename_i hstarted
    obtain ⟨⟨d, fx⟩, hd, hs⟩ := Option.map_eq_some_iff.1 h
    cases hs
    simp [hstarted, act_eq hd]

theorem update_diary {fuel : Nat} {now : Beat} {s s' : Slot (Diarist ε)}
    {fx : Effects (Diarist ε)} (h : s.update fuel now = some (s', fx)) :
    s'.started = s.started ∧ s'.ended = s.ended ∧
      s'.event.diary = s.event.diary ++ [.update] := by
  obtain ⟨⟨d, fx⟩, hd, hs⟩ := Option.map_eq_some_iff.1 h
  cases hs
  exact ⟨rfl, rfl, act_eq hd⟩

theorem finish_diary {fuel : Nat} {now : Beat} {s s' : Slot (Diarist ε)}
    {fx : Effects (Diarist ε)} (h : s.finish fuel now = some (s', fx)) :
    s'.started = s.started ∧ s'.ended = true ∧
      s'.event.diary = s.event.diary ++ [.finish] := by
  obtain ⟨⟨d, fx⟩, hd, hs⟩ := Option.map_eq_some_iff.1 h
  cases hs
  exact ⟨rfl, rfl, act_eq hd⟩

/-- What running an event does that has not ended. -/
theorem run_diary {fuel : Nat} {now : Beat} {s s' : Slot (Diarist ε)}
    {fx : Effects (Diarist ε)} (hended : s.ended = false) (h : s.run fuel now = some (s', fx)) :
    s'.started = true ∧ s'.event.diary = s.event.diary ++
      ((if s.started then [] else [.start]) ++ .update :: if s'.ended then [.finish] else []) := by
  simp only [Slot.run, Option.bind_eq_bind, Option.bind_eq_some_iff] at h
  obtain ⟨⟨s₁, fx₁⟩, hbegin, h⟩ := h
  obtain ⟨hstarted₁, hended₁, hdiary₁⟩ := begin_diary hbegin
  simp only [hended₁, hended, Bool.false_eq_true, if_false, Option.bind_eq_some_iff] at h
  obtain ⟨⟨s₂, fx₂⟩, hupdate, h⟩ := h
  obtain ⟨hstarted₂, hended₂, hdiary₂⟩ := update_diary hupdate
  simp only at h
  split at h
  · cases h
    simp [hstarted₂, hstarted₁, hended₂, hended₁, hended, hdiary₂, hdiary₁]
  · obtain ⟨⟨s₃, fx₃⟩, hfinish, h⟩ := Option.bind_eq_some_iff.1 h
    obtain ⟨hstarted₃, hended₃, hdiary₃⟩ := finish_diary hfinish
    cases h
    simp [hstarted₃, hstarted₂, hstarted₁, hended₃, hdiary₃, hdiary₂, hdiary₁]

/-- What a tick does to an event that has not ended : nothing if the event is early, and
otherwise it starts the event unless it has started, updates it, and ends it if it is over. -/
theorem tick_cases {fuel : Nat} {now : Beat} {s s₁ s₂ : Slot (Diarist ε)}
    {fx₁ fx₂ : Effects (Diarist ε)} (hended : s.ended = false)
    (hvisit : s.visit fuel now = some (s₁, fx₁)) (hretire : s₁.retire fuel now = some (s₂, fx₂)) :
    (s.started = false ∧ now < Placed.beat s.event ∧ s₂ = s) ∨
      ((s.started = false → ¬now < Placed.beat s.event) ∧ s₂.started = true ∧
        s₂.event.diary = s.event.diary ++ ((if s.started then [] else [.start]) ++
          .update :: if s₂.isOver then [.finish] else [])) := by
  unfold Slot.visit at hvisit
  split at hvisit
  · rename_i hearly
    cases hvisit
    simp only [Slot.isEarly, Bool.and_eq_true, Bool.not_eq_true', decide_eq_true_eq] at hearly
    simp only [Slot.retire, hearly.1, Bool.false_and, Bool.false_eq_true, if_false] at hretire
    cases hretire
    exact .inl ⟨hearly.1, hearly.2, rfl⟩
  · rename_i hdue
    obtain ⟨hstarted, hdiary⟩ := run_diary hended hvisit
    refine .inr ⟨fun hnot => ?_, ?_⟩
    · simpa [Slot.isEarly, hnot] using hdue
    · unfold Slot.retire at hretire
      split at hretire
      · rename_i hgo
        obtain ⟨hstarted₂, hended₂, hdiary₂⟩ := finish_diary hretire
        simp only [Bool.and_eq_true, Bool.not_eq_true'] at hgo
        simp [hstarted₂, hstarted, hdiary₂, hdiary, hgo.1.2, Slot.isOver, hended₂]
      · rename_i hgo
        cases hretire
        have hover : s₁.isOver = s₁.ended := by
          cases h : s₁.ended with
          | true => simp [Slot.isOver, h]
          | false => simpa [Slot.isOver, h, hstarted] using hgo
        exact ⟨hstarted, by rw [hdiary, hover]⟩

end Diarist

/-! ## One tick of one life -/

namespace Day

/-- The beat of the event was still to come. -/
def IsEarly (d : Day ε) : Prop := d.now < Placed.beat d.before.event

/-- The hook at the end of the day : the end of the event if the day leaves it over. -/
def ending (d : Day ε) : List Moment := if d.after.isOver then [.finish] else []

end Day

namespace Life

/-- The hooks that were called on the event over its life. -/
def hooks (l : Life α ε) : List Moment := l.days.flatMap (·.hooks)

/-- The event has come just now, and tick number `tick` will be the first to visit it. -/
structure IsNew (tick : Nat) (l : Life α ε) : Prop where
  arrival : l.arrival = tick
  started : l.slot.started = false
  ended : l.slot.ended = false
  days : l.days = []

/-- The life `l'` is the life `l` after tick number `tick`, which visits the event and ends it
if it wants to go. -/
def TicksTo (fuel tick : Nat) (now : Beat) (l l' : Life α ε) : Prop :=
  ∃ s fx s' fx', l.wake.slot.visit fuel now = some (s, fx) ∧
    s.retire fuel now = some (s', fx') ∧ l' = Today.close tick now ⟨l, s'⟩

/-- The life of an event day by day. Each tick from the arrival on has visited the event. There
are early days without a hook, then the day of the start, with its first update, and then days
with one update each; a day that leaves a started event over has the end of the event last. -/
structure IsOrderly (l : Life α ε) : Prop where
  visited : l.days.map (·.tick) = List.range' l.arrival l.days.length
  unstarted : l.slot.started = false → ∀ d ∈ l.days, d.IsEarly ∧ d.hooks = []
  started : l.slot.started = true → ∃ early first later, l.days = early ++ first :: later ∧
    (∀ d ∈ early, d.IsEarly ∧ d.hooks = []) ∧
    (¬first.IsEarly ∧ first.hooks = .start :: .update :: first.ending) ∧
    ∀ d ∈ later, d.hooks = .update :: d.ending

/-- The event is on the time line when `ticks` ticks are done : no day has left it over. -/
structure IsLive (ticks : Nat) (l : Life α ε) : Prop extends l.IsOrderly where
  upToDate : l.arrival + l.days.length = ticks
  stays : ∀ d ∈ l.days, d.after.isOver = false
  ended : l.slot.ended = false

/-- The event has been removed : its last day, and no day before, has left it over. -/
structure IsGone (l : Life α ε) : Prop extends l.IsOrderly where
  removed : ∃ days last, l.days = days ++ [last] ∧ (∀ d ∈ days, d.after.isOver = false) ∧
    last.after.isOver = true

theorem IsNew.isLive {tick : Nat} {l : Life α ε} (h : l.IsNew tick) : l.IsLive tick where
  visited := by simp [h.days]
  unstarted _ := by simp [h.days]
  started hstarted := by simp [h.started] at hstarted
  upToDate := by simp [h.days, h.arrival]
  stays := by simp [h.days]
  ended := h.ended

/-- A tick adds a day to a life and leaves it orderly. -/
theorem IsLive.isOrderly {fuel tick : Nat} {now : Beat} {l l' : Life α ε} (h : l.IsLive tick)
    (htick : l.TicksTo fuel tick now l') :
    l'.IsOrderly ∧ ∃ d, l'.days = l.days ++ [d] ∧ d.after = l'.slot ∧ l'.arrival = l.arrival := by
  obtain ⟨s, fx, s', fx', hvisit, hretire, rfl⟩ := htick
  have hvisited : (Today.close tick now ⟨l, s'⟩).days.map (·.tick) =
      List.range' l.arrival (Today.close tick now ⟨l, s'⟩).days.length := by
    simp [Today.close, Today.page, h.visited, List.range'_concat, h.upToDate]
  refine ⟨?_, _, rfl, rfl, rfl⟩
  rcases Diarist.tick_cases h.ended hvisit hretire with
    ⟨hstarted, hearly, rfl⟩ | ⟨hdue, hstarted', hdiary⟩
  · -- the event is left alone
    refine ⟨hvisited, fun _ => ?_, fun hstarted' => ?_⟩
    · refine List.forall_mem_append.2 ⟨h.unstarted hstarted, List.forall_mem_singleton.2 ?_⟩
      exact ⟨hearly, rfl⟩
    · exact absurd (hstarted.symm.trans hstarted') Bool.false_ne_true
  · have hhooks : s'.event.diary = (if l.slot.started then [] else [.start]) ++
        .update :: if s'.isOver then [.finish] else [] := hdiary
    refine ⟨hvisited, fun hnot => ?_, fun _ => ?_⟩
    · exact absurd (hnot.symm.trans hstarted') Bool.false_ne_true
    · cases hstarted : l.slot.started with
      | false =>
        -- the event starts
        rw [hstarted] at hhooks
        exact ⟨l.days, _, [], rfl, h.unstarted hstarted, ⟨hdue hstarted, hhooks⟩,
          List.forall_mem_nil _⟩
      | true =>
        rw [hstarted] at hhooks
        obtain ⟨early, first, later, hdays, hearly, hfirst, hlater⟩ := h.started hstarted
        refine ⟨early, first, later ++ [Today.page tick now ⟨l, s'⟩], ?_, hearly, hfirst,
          List.forall_mem_append.2 ⟨hlater, List.forall_mem_singleton.2 hhooks⟩⟩
        simp only [Today.close, hdays, List.append_assoc, List.cons_append]

theorem IsLive.step {fuel tick : Nat} {now : Beat} {l l' : Life α ε} (h : l.IsLive tick)
    (htick : l.TicksTo fuel tick now l') :
    if l'.slot.isOver then l'.IsGone else l'.IsLive (tick + 1) := by
  obtain ⟨horderly, d, hdays, hafter, harrival⟩ := h.isOrderly htick
  split
  · rename_i hover
    exact ⟨horderly, l.days, d, hdays, h.stays, hafter ▸ hover⟩
  · rename_i hover
    have hstays : d.after.isOver = false := hafter ▸ eq_false_of_ne_true hover
    refine ⟨horderly, ?_, ?_, ?_⟩
    · rw [hdays, harrival, List.length_append, List.length_singleton, ← h.upToDate]
      omega
    · rw [hdays]
      exact List.forall_mem_append.2 ⟨h.stays, List.forall_mem_singleton.2 hstays⟩
    · rw [hafter] at hstays
      exact (Bool.or_eq_false_iff.1 hstays).1

/-! ## The hooks of a whole life -/

/-- After a day the event goes on with an update on each day, as long as no day but the last
leaves it over. -/
theorem ending_append_flatMap_hooks {first : Day ε} {later : List (Day ε)}
    (hlater : ∀ d ∈ later, d.hooks = .update :: d.ending)
    (hstays : ∀ d ∈ (first :: later).dropLast, d.after.isOver = false) :
    first.ending ++ later.flatMap (·.hooks) =
      List.replicate later.length .update ++ (later.getLastD first).ending := by
  induction later generalizing first with
  | nil => simp
  | cons d later ih =>
    obtain ⟨hd, hlater⟩ := List.forall_mem_cons.1 hlater
    rw [List.dropLast_cons_cons] at hstays
    obtain ⟨hstay, hstays⟩ := List.forall_mem_cons.1 hstays
    have hnone : first.ending = [] := by simp [Day.ending, hstay]
    rw [hnone, List.flatMap_cons, hd, List.nil_append, List.cons_append, ih hlater hstays,
      List.length_cons, List.replicate_succ, List.cons_append, List.getLastD_cons]

/-- The hooks of a life of which no day but the last leaves the event over. -/
theorem IsOrderly.hooks_eq {l : Life α ε} (h : l.IsOrderly)
    (hstays : ∀ d ∈ l.days.dropLast, d.after.isOver = false) :
    l.slot.started = false ∧ l.hooks = [] ∨ l.slot.started = true ∧ ∃ n last,
      l.days.getLast? = some last ∧
        l.hooks = .start :: (List.replicate (n + 1) .update ++ last.ending) := by
  cases hstarted : l.slot.started with
  | false =>
    exact .inl ⟨rfl, List.flatMap_eq_nil_iff.2 fun d hd => (h.unstarted hstarted d hd).2⟩
  | true =>
    obtain ⟨early, first, later, hdays, hearly, hfirst, hlater⟩ := h.started hstarted
    have hnone : early.flatMap (·.hooks) = [] :=
      List.flatMap_eq_nil_iff.2 fun d hd => (hearly d hd).2
    rw [hdays, List.dropLast_append_cons] at hstays
    refine .inr ⟨rfl, later.length, later.getLastD first, ?_, ?_⟩
    · simp [hdays, List.getLast?_cons]
    · rw [hooks, hdays, List.flatMap_append, hnone, List.nil_append, List.flatMap_cons, hfirst.2,
        List.cons_append, List.cons_append,
        ending_append_flatMap_hooks hlater (List.forall_mem_append.1 hstays).2,
        List.replicate_succ, List.cons_append]

theorem IsLive.hooks_eq {ticks : Nat} {l : Life α ε} (h : l.IsLive ticks) :
    l.slot.started = false ∧ l.hooks = [] ∨ l.slot.started = true ∧ ∃ n,
      l.hooks = .start :: List.replicate (n + 1) .update := by
  refine (h.toIsOrderly.hooks_eq fun d hd => h.stays d (l.days.dropLast_subset hd)).imp_right ?_
  rintro ⟨hstarted, n, last, hlast, hhooks⟩
  have hnone : last.ending = [] := by
    simp [Day.ending, h.stays last (List.mem_of_getLast? hlast)]
  exact ⟨hstarted, n, by rw [hhooks, hnone, List.append_nil]⟩

theorem IsGone.hooks_eq {l : Life α ε} (h : l.IsGone) :
    l.slot.started = false ∧ l.hooks = [] ∨ l.slot.started = true ∧ ∃ n,
      l.hooks = .start :: (List.replicate (n + 1) .update ++ [.finish]) := by
  obtain ⟨days, last, hdays, hstays, hover⟩ := h.removed
  have hdrop : l.days.dropLast = days := by rw [hdays, List.dropLast_concat]
  refine (h.toIsOrderly.hooks_eq (hdrop ▸ hstays)).imp_right ?_
  rintro ⟨hstarted, n, last', hlast, hhooks⟩
  obtain rfl : last = last' := by
    rw [hdays, List.getLast?_concat] at hlast
    exact Option.some.inj hlast
  have hending : last.ending = [.finish] := by simp [Day.ending, hover]
  exact ⟨hstarted, n, by rw [hhooks, hending]⟩

end Life

/-! ## Whole ticks -/

namespace Chronicle

open Life

theorem mem_of_mapM {β γ : Type} {f : β → Option γ} {xs : List β} {ys : List γ}
    (h : xs.mapM f = some ys) : ∀ y ∈ ys, ∃ x ∈ xs, f x = some y := by
  induction xs generalizing ys with
  | nil =>
    cases h
    exact List.forall_mem_nil _
  | cons x xs ih =>
    simp only [List.mapM_cons, Option.bind_eq_bind, Option.bind_eq_some_iff] at h
    obtain ⟨y, hy, ys', hys, h⟩ := h
    cases h
    refine List.forall_mem_cons.2 ⟨⟨x, List.mem_cons_self, hy⟩, fun z hz => ?_⟩
    obtain ⟨w, hw, hz⟩ := ih hys z hz
    exact ⟨w, List.mem_cons_of_mem _ hw, hz⟩

theorem isNew_of_mem_heirs {arrival : Nat} {xs : List (Today α ε × Effects ε)} :
    ∀ l ∈ heirs arrival xs, l.IsNew arrival := by
  intro l hl
  obtain ⟨x, -, hx⟩ := List.mem_flatMap.1 hl
  obtain ⟨e, -, rfl⟩ := List.mem_map.1 hx
  exact ⟨rfl, rfl, rfl, rfl⟩

/-- All that is visited in a tick was there before or is new. -/
theorem of_mem_visitAll {fuel tick waves : Nat} {now : Beat} {line : List (Life α ε)}
    {seen : List (Today α ε × Effects ε)}
    (h : visitAll fuel tick now waves (line.map wake) = some seen) :
    ∀ x ∈ seen, ∃ l, (l ∈ line ∨ l.IsNew tick) ∧ x.1.life = l ∧
      ∃ fx, l.wake.slot.visit fuel now = some (x.1.slot, fx) := by
  induction waves generalizing line seen with
  | zero => cases h
  | succ waves ih =>
    simp only [visitAll, Option.bind_eq_bind, Option.bind_eq_some_iff] at h
    obtain ⟨first, hfirst, h⟩ := h
    have hfirst' : ∀ x ∈ first, ∃ l, (l ∈ line ∨ l.IsNew tick) ∧ x.1.life = l ∧
        ∃ fx, l.wake.slot.visit fuel now = some (x.1.slot, fx) := by
      intro x hx
      obtain ⟨w, hw, hact⟩ := mem_of_mapM hfirst x hx
      obtain ⟨l, hl, rfl⟩ := List.mem_map.1 hw
      obtain ⟨⟨s, fx⟩, hvisit, rfl⟩ := Option.map_eq_some_iff.1 hact
      exact ⟨l, .inl hl, rfl, fx, hvisit⟩
    split at h
    · cases h
      exact hfirst'
    · obtain ⟨later, hlater, h⟩ := Option.bind_eq_some_iff.1 h
      cases h
      refine List.forall_mem_append.2 ⟨hfirst', fun x hx => ?_⟩
      obtain ⟨l, hl, hrest⟩ := ih hlater x hx
      exact ⟨l, .inr (hl.elim (isNew_of_mem_heirs l) id), hrest⟩

/-- What a tick of the host does to the lives of its events. -/
theorem exists_of_process {fuel : Nat} {c c' : Chronicle α ε} (h : c.process fuel = some c') :
    ∃ lives late : List (Life α ε), (∀ l' ∈ lives, ∃ l, (l ∈ c.live ∨ l.IsNew c.ticks) ∧
        l.TicksTo fuel c.ticks c.clock.beat l') ∧
      (∀ l ∈ late, l.IsNew (c.ticks + 1)) ∧ c'.ticks = c.ticks + 1 ∧
      c'.live = lives.filter (!·.slot.isOver) ++ late ∧
      c'.gone = c.gone ++ lives.filter (·.slot.isOver) := by
  simp only [process, Option.bind_eq_bind, Option.bind_eq_some_iff] at h
  obtain ⟨seen, hseen, retired, hretired, h⟩ := h
  cases h
  refine ⟨_, _, ?_, isNew_of_mem_heirs, rfl, rfl, rfl⟩
  intro l' hl'
  obtain ⟨y, hy, rfl⟩ := List.mem_map.1 hl'
  obtain ⟨w, hw, hact⟩ := mem_of_mapM hretired y hy
  obtain ⟨x, hx, rfl⟩ := List.mem_map.1 hw
  obtain ⟨l, hl, hlife, fx, hvisit⟩ := of_mem_visitAll hseen x hx
  obtain ⟨⟨s, fx'⟩, hretire, rfl⟩ := Option.map_eq_some_iff.1 hact
  exact ⟨l, hl, x.1.slot, fx, s, fx', hvisit, hretire, by rw [← hlife]⟩

/-- All lives are as they should be. -/
structure IsSound (c : Chronicle α ε) : Prop where
  live : ∀ l ∈ c.live, l.IsLive c.ticks
  gone : ∀ l ∈ c.gone, l.IsGone

theorem IsSound.process {fuel : Nat} {c c' : Chronicle α ε} (hc : c.IsSound)
    (h : c.process fuel = some c') : c'.IsSound := by
  obtain ⟨lives, late, hlives, hlate, hticks, hlive, hgone⟩ := exists_of_process h
  have hstep : ∀ l' ∈ lives, if l'.slot.isOver then l'.IsGone else l'.IsLive (c.ticks + 1) := by
    intro l' hl'
    obtain ⟨l, hl, htick⟩ := hlives l' hl'
    exact (hl.elim (hc.live l) IsNew.isLive).step htick
  constructor
  · rw [hlive, hticks]
    refine List.forall_mem_append.2 ⟨fun l hl => ?_, fun l hl => (hlate l hl).isLive⟩
    obtain ⟨hmem, hstays⟩ := List.mem_filter.1 hl
    simpa [Bool.not_eq_true' _ ▸ hstays] using hstep l hmem
  · rw [hgone]
    refine List.forall_mem_append.2 ⟨hc.gone, fun l hl => ?_⟩
    obtain ⟨hmem, hover⟩ := List.mem_filter.1 hl
    simpa [hover] using hstep l hmem

theorem IsSound.perform {d : Deed α ε} {c c' : Chronicle α ε} (hc : c.IsSound)
    (h : c.perform d = some c') : c'.IsSound ∧ c.gone <+: c'.gone := by
  cases d with
  | add owner e =>
    cases h
    refine ⟨⟨List.forall_mem_append.2 ⟨hc.live, List.forall_mem_singleton.2 ?_⟩, hc.gone⟩,
      List.prefix_refl _⟩
    exact IsNew.isLive ⟨rfl, rfl, rfl, rfl⟩
  | tick fuel k =>
    refine ⟨IsSound.process (c := { c with clock := k.clock c.clock }) ⟨hc.live, hc.gone⟩ h, ?_⟩
    obtain ⟨lives, late, -, -, -, -, hgone⟩ := exists_of_process h
    exact hgone ▸ List.prefix_append _ _

theorem IsSound.run {deeds : List (Deed α ε)} {c c' : Chronicle α ε} (hc : c.IsSound)
    (h : c.run deeds = some c') : c'.IsSound ∧ c.gone <+: c'.gone := by
  induction deeds generalizing c with
  | nil =>
    cases h
    exact ⟨hc, List.prefix_refl _⟩
  | cons d deeds ih =>
    rw [Chronicle.run, List.foldlM_cons] at h
    obtain ⟨c₁, hd, hrest⟩ := Option.bind_eq_some_iff.1 h
    obtain ⟨hc₁, hgone⟩ := hc.perform hd
    obtain ⟨hc', hgone'⟩ := ih hc₁ hrest
    exact ⟨hc', hgone.trans hgone'⟩

/-- The chronicle `c` tells the history of the deeds that lead from an empty host to `t`. -/
structure IsHistory (deeds : List (Deed α ε)) (t : Timeline ε) (c : Chronicle α ε) : Prop where
  run : ({} : Chronicle α ε).run deeds = some c
  timeline : c.timeline = t
  live : ∀ l ∈ c.live, l.IsLive c.ticks
  gone : ∀ l ∈ c.gone, l.IsGone
  /-- An event on the time line that has started had one start and then only updates. -/
  live_hooks : ∀ l ∈ c.live, l.slot.started = false ∧ l.hooks = [] ∨ l.slot.started = true ∧
    ∃ n, l.hooks = .start :: List.replicate (n + 1) .update
  /-- A removed event that had started had one start, then updates, and then one end. -/
  gone_hooks : ∀ l ∈ c.gone, l.slot.started = false ∧ l.hooks = [] ∨ l.slot.started = true ∧
    ∃ n, l.hooks = .start :: (List.replicate (n + 1) .update ++ [.finish])
  /-- Nothing happens to an event any more that has been removed. -/
  final : ∀ past future, deeds = past ++ future →
    ∃ c', ({} : Chronicle α ε).run past = some c' ∧ c'.gone <+: c.gone

/-- Whatever the events of a host do, and however they change when they act, their lives are
as they should be. -/
theorem history_of_run {deeds : List (Deed α ε)} {t : Timeline ε}
    (h : ({} : Timeline ε).run deeds = some t) : ∃ c : Chronicle α ε, c.IsHistory deeds t := by
  have hrun : (({} : Chronicle α ε).run deeds).map Chronicle.timeline = some t := by
    rw [timeline_run]
    exact h
  obtain ⟨c, hc, rfl⟩ := Option.map_eq_some_iff.1 hrun
  have hempty : ({} : Chronicle α ε).IsSound :=
    ⟨List.forall_mem_nil _, List.forall_mem_nil _⟩
  obtain ⟨hsound, -⟩ := hempty.run hc
  refine ⟨c, hc, rfl, hsound.live, hsound.gone, fun l hl => (hsound.live l hl).hooks_eq,
    fun l hl => (hsound.gone l hl).hooks_eq, ?_⟩
  rintro past future rfl
  rw [Chronicle.run, List.foldlM_append] at hc
  obtain ⟨c', hpast, hfuture⟩ := Option.bind_eq_some_iff.1 hc
  exact ⟨c', hpast, ((hempty.run hpast).1.run hfuture).2⟩

/-- A stand-in that brings on a cue at each of its moments and leaves before its end. -/
def lingering : Act :=
  .guest (.playing "linger" 1 8 3 false [.cue (.playStem "in" "drums")]
    [.cue (.moveCamera "zoom" 2 1)] [.cue (.light "out" "blue")])

/-- Two stand-ins, one added between the ticks. -/
def staying : List (Deed Unit Act) :=
  [.add () lingering, .tick 20 .process, .tick 20 (.advance 1.5), .add () lingering,
    .tick 20 (.advanceTo 2), .tick 20 (.advanceSeconds 0.5 120), .tick 20 .process]

theorem history_of_run_staying : ∃ t, ({} : Timeline Act).run staying = some t ∧
    ∃ c : Chronicle Unit Act, c.IsHistory staying t := by
  have hs : (({} : Timeline Act).run staying).isSome := by decide +kernel
  obtain ⟨t, ht⟩ := Option.isSome_iff_exists.1 hs
  exact ⟨t, ht, history_of_run ht⟩

end Chronicle

end Downbeat
