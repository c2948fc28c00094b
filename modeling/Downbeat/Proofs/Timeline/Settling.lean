import Mathlib.Algebra.Order.Group.Multiset
import Mathlib.Data.List.Basic
import Mathlib.Tactic.Abel
import Downbeat.Timeline

/-!
# How a tick settles a line

A tick visits the events on its line and all that they bring on. In which order it does so
does not matter to what comes of it : `Settles now line live plans` says that from the line
the events `live` stay and that cues fire as planned in `plans`, both without an order, by
working off the line and what it brings on one slot after another. What a line settles to is
determined (`Settles.unique`), and a tick settles its line (`settles_of_process`).

Events are patient (`Patient`) if a visit can be left out when there is a later one. A host
of patient events may tick as seldom as it likes (`Settles.of_le`).
-/

set_option linter.unusedSectionVars false

namespace Downbeat

/-- What is known of a cue that fired before it fires. -/
def Firing.plan (f : Firing) : String × Cue.Kind × Beat := (f.label, f.kind, f.scheduled)

/-- The plans of the cues that fired, in no order. -/
def Effects.plans {ε : Type} (fx : Effects ε) : Multiset (String × Cue.Kind × Beat) :=
  (fx.firings.map Firing.plan : List _)

@[simp] theorem Effects.plans_empty {ε : Type} : ({} : Effects ε).plans = 0 := rfl

@[simp] theorem Effects.plans_append {ε : Type} (a b : Effects ε) :
    (a ++ b).plans = a.plans + b.plans := by
  simp [plans]

variable {ε : Type} [Placed ε] [Hosted ε ε]

/-- What stays of a slot at the end of a tick. -/
def Slot.live (s : Slot ε) : Multiset (Slot ε) := if s.isOver then 0 else {s}

/-- What stays of a line at the end of a tick, in no order. -/
def living (line : List (Slot ε)) : Multiset (Slot ε) :=
  (line.filter (!·.isOver) : List (Slot ε))

theorem living_cons (s : Slot ε) (line : List (Slot ε)) :
    living (s :: line) = s.live + living line := by
  cases h : s.isOver with
  | true => simp [living, Slot.live, h]
  | false => simp [living, Slot.live, h]

theorem living_append (line line' : List (Slot ε)) :
    living (line ++ line') = living line + living line' := by
  rw [living, List.filter_append, ← Multiset.coe_add, living, living]

/-- The slot holds an event in `W` that has not ended. -/
def Slot.Holds (W : ε → Prop) (s : Slot ε) : Prop := W s.event ∧ s.ended = false

namespace Timeline

/-! ## Lines without an order -/

/-- The line settles at the beat `now` : of the events on it and of those that they bring on
`live` stay, and cues with the plans `plans` fire. -/
inductive Settles (now : Beat) :
    List (Slot ε) → Multiset (Slot ε) → Multiset (String × Cue.Kind × Beat) → Prop
  | nil : Settles now [] 0 0
  | cons {fuel : Nat} {s s' : Slot ε} {fx : Effects ε} {line : List (Slot ε)}
      {live : Multiset (Slot ε)} {plans : Multiset (String × Cue.Kind × Beat)}
      (visit : s.visit fuel now = some (s', fx))
      (rest : Settles now (fresh fx.events ++ line) live plans) :
      Settles now (s :: line) (s'.live + live) (fx.plans + plans)

@[simp] theorem fresh_nil : fresh ([] : List ε) = [] := rfl

theorem fresh_append (es fs : List ε) : fresh (es ++ fs) = fresh es ++ fresh fs :=
  List.map_append

namespace Settles

variable {now : Beat} {line line' : List (Slot ε)} {live live' : Multiset (Slot ε)}
  {plans plans' : Multiset (String × Cue.Kind × Beat)}

theorem append (h : Settles now line live plans) (h' : Settles now line' live' plans') :
    Settles now (line ++ line') (live + live') (plans + plans') := by
  induction h with
  | nil => simpa using h'
  | cons visit _ ih =>
    rw [List.append_assoc] at ih
    rw [List.cons_append, add_assoc, add_assoc]
    exact .cons visit ih

theorem split (h : Settles now (line ++ line') live plans) : ∃ l p l' p',
    Settles now line l p ∧ Settles now line' l' p' ∧ live = l + l' ∧ plans = p + p' := by
  generalize hw : line ++ line' = whole at h
  induction h generalizing line with
  | nil =>
    obtain ⟨rfl, rfl⟩ := List.append_eq_nil_iff.1 hw
    exact ⟨0, 0, 0, 0, .nil, .nil, rfl, rfl⟩
  | @cons fuel s s' fx rest live plans visit hrest ih =>
    cases line with
    | nil =>
      obtain rfl : line' = s :: rest := hw
      exact ⟨0, 0, _, _, .nil, .cons visit hrest, (zero_add _).symm, (zero_add _).symm⟩
    | cons a line =>
      obtain ⟨rfl, rfl⟩ := List.cons.inj hw
      obtain ⟨l, p, l', p', hl, hl', rfl, rfl⟩ := ih (List.append_assoc _ _ _)
      exact ⟨_, _, l', p', .cons visit hl, hl', (add_assoc _ _ _).symm, (add_assoc _ _ _).symm⟩

/-- A slot settles by itself. -/
theorem uncons {s : Slot ε} (h : Settles now (s :: line) live plans) : ∃ l p l' p',
    Settles now [s] l p ∧ Settles now line l' p' ∧ live = l + l' ∧ plans = p + p' := by
  have h' : Settles now ([s] ++ line) live plans := h
  exact h'.split

theorem perm (hp : line.Perm line') (h : Settles now line live plans) :
    Settles now line' live plans := by
  induction hp generalizing live plans with
  | nil => exact h
  | cons s _ ih =>
    obtain ⟨l, p, l', p', hl, hl', rfl, rfl⟩ := h.uncons
    exact append hl (ih hl')
  | swap s t rest =>
    obtain ⟨l, p, _, _, hl, hrest, rfl, rfl⟩ := h.uncons
    obtain ⟨l', p', _, _, hl', hrest', rfl, rfl⟩ := hrest.uncons
    rw [add_left_comm l, add_left_comm p]
    exact append hl' (append hl hrest')
  | trans _ _ ih ih' => exact ih' (ih h)

end Settles

/-! ## Ticks -/

theorem exists_of_runLine_cons {go : Slot ε → Option (Slot ε × Effects ε)} {s : Slot ε}
    {line line' : List (Slot ε)} {fx : Effects ε} (h : runLine go (s :: line) = some (line', fx)) :
    ∃ s' fx₁ rest fx₂, go s = some (s', fx₁) ∧ runLine go line = some (rest, fx₂) ∧
      line' = s' :: rest ∧ fx = fx₁ ++ fx₂ := by
  simp only [runLine, bind, Option.bind_eq_some_iff, Option.pure_def, Option.some.injEq] at h
  obtain ⟨⟨s', fx₁⟩, hs, ⟨rest, fx₂⟩, hrest, h⟩ := h
  obtain ⟨rfl, rfl⟩ := Prod.mk.inj h
  exact ⟨s', fx₁, rest, fx₂, hs, hrest, rfl, rfl⟩

theorem exists_of_visitAll_succ {fuel waves : Nat} {now : Beat} {line line' : List (Slot ε)}
    {fx : Effects ε} (h : visitAll fuel now (waves + 1) line = some (line', fx)) :
    ∃ first fx₁, runLine (Slot.visit fuel now) line = some (first, fx₁) ∧
      ((fx₁.events = [] ∧ line' = first ∧ fx = fx₁) ∨
        ∃ later fx₂, visitAll fuel now waves (fresh fx₁.events) = some (later, fx₂) ∧
          line' = first ++ later ∧ fx = { fx₁ with events := [] } ++ fx₂) := by
  simp only [visitAll, bind, Option.bind_eq_some_iff, Option.pure_def] at h
  obtain ⟨⟨first, fx₁⟩, hfirst, h⟩ := h
  refine ⟨first, fx₁, hfirst, ?_⟩
  split at h
  · cases h
    exact .inl ⟨List.isEmpty_iff.1 ‹_›, rfl, rfl⟩
  · obtain ⟨⟨later, fx₂⟩, hlater, h⟩ := Option.bind_eq_some_iff.1 h
    cases h
    exact .inr ⟨later, fx₂, hlater, rfl, rfl⟩

/-- A line is shorter by what is removed from it, less what is brought on. -/
theorem fewer_join (p : Slot ε → Bool) (line : List (Slot ε)) (es : List ε) :
    fewer line.length (join (line.filter (!p ·)) es).length =
      fewer (line.filter p).length es.length := by
  rw [join_eq, List.length_append, fresh, List.length_map, line.length_eq_length_filter_add p,
    Nat.add_comm _ es.length]
  exact fewer_add_add _ _ _

/-- What a tick does : it visits the line with what comes on meanwhile, sweeps it, and removes what
is over; it notes what fires, and reports it before it counts. -/
theorem exists_sweep_of_process {fuel : Nat} {t t' : Timeline ε} {notices : List Notice}
    (h : t.process fuel = some (t', notices)) :
    ∃ seen fx swept fx', visitAll fuel t.clock.beat fuel t.slots = some (seen, fx) ∧
      runLine (Slot.retire fuel t.clock.beat) seen = some (swept, fx') ∧
      t' = { clock := t.clock, slots := swept.filter (!·.isOver) ++ fresh fx'.events,
             log := (fx ++ fx').firings.reverse ++ t.log } ∧
      notices = (fx ++ fx').notices ++ [.ticked t.clock.beat
        (fewer (swept.filter (·.isOver)).length fx'.events.length) t'.slots.length] := by
  simp only [process, bind, Option.bind_eq_some_iff, Option.pure_def, Option.some.injEq] at h
  obtain ⟨⟨seen, fx⟩, hvisit, ⟨swept, fx'⟩, hretire, h⟩ := h
  obtain ⟨rfl, rfl⟩ := Prod.mk.inj h
  refine ⟨seen, fx, swept, fx', hvisit, hretire, ?_, ?_⟩
  · rw [join_eq, List.reverseAux_eq]
  · rw [fewer_join]

/-- A tick leaves the clock alone. -/
theorem clock_of_process {fuel : Nat} {t t' : Timeline ε} {notices : List Notice}
    (h : t.process fuel = some (t', notices)) : t'.clock = t.clock := by
  obtain ⟨_, _, _, _, -, -, rfl, -⟩ := exists_sweep_of_process h
  rfl

theorem settles_of_runLine {fuel : Nat} {now : Beat} {line line' : List (Slot ε)}
    {fx : Effects ε} {live : Multiset (Slot ε)} {plans : Multiset (String × Cue.Kind × Beat)}
    (h : runLine (Slot.visit fuel now) line = some (line', fx))
    (hrest : Settles now (fresh fx.events) live plans) :
    Settles now line (living line' + live) (fx.plans + plans) := by
  induction line generalizing line' fx live plans with
  | nil =>
    cases h
    simpa [living] using hrest
  | cons s line ih =>
    obtain ⟨s', fx₁, rest, fx₂, hs, hline, rfl, rfl⟩ := exists_of_runLine_cons h
    rw [Effects.events_append, fresh_append] at hrest
    obtain ⟨l, p, l', p', hl, hl', rfl, rfl⟩ := hrest.split
    have hsettles := Settles.cons hs (hl.append (ih hline hl'))
    rw [living_cons, Effects.plans_append, add_assoc, add_assoc, add_left_comm _ l,
      add_left_comm _ p]
    exact hsettles

theorem settles_of_visitAll {fuel waves : Nat} {now : Beat} {line line' : List (Slot ε)}
    {fx : Effects ε} (h : visitAll fuel now waves line = some (line', fx)) :
    Settles now line (living line') fx.plans ∧ fx.events = [] := by
  induction waves generalizing line line' fx with
  | zero => cases h
  | succ waves ih =>
    obtain ⟨first, fx₁, hfirst, ⟨hnone, rfl, rfl⟩ | ⟨later, fx₂, hlater, rfl, rfl⟩⟩ :=
      exists_of_visitAll_succ h
    · have hnil : Settles now (fresh fx.events) 0 0 := by
        rw [hnone]
        exact .nil
      have hline := settles_of_runLine hfirst hnil
      rw [add_zero, add_zero] at hline
      exact ⟨hline, hnone⟩
    · obtain ⟨hsettles, hevents⟩ := ih hlater
      have hline := settles_of_runLine hfirst hsettles
      refine ⟨?_, ?_⟩
      · rw [living_append, Effects.plans_append]
        exact hline
      · rw [Effects.events_append, hevents, List.append_nil]

/-! ## Patient events -/

/-- The events in `W` are patient : a visit to one of them can be left out if there is a later
one, which then does what both would have done. -/
structure Patient (W : ε → Prop) : Prop where
  /-- What a visit does is not a matter of the bound on its work. -/
  agree : ∀ {s : Slot ε} {now : Beat} {n m : Nat} {x y : Slot ε × Effects ε}, s.Holds W →
    s.visit n now = some x → s.visit m now = some y → x = y
  /-- What events bring on is as patient as they are. -/
  within : ∀ {s s' : Slot ε} {now : Beat} {n : Nat} {fx : Effects ε}, s.Holds W →
    s.visit n now = some (s', fx) → W s'.event ∧ ∀ e ∈ fx.events, W e
  /-- An event that is over does no more at a later visit than it did. -/
  finished : ∀ {s s' : Slot ε} {now later : Beat} {n : Nat} {fx : Effects ε}, s.Holds W →
    now ≤ later → s.visit n now = some (s', fx) → s'.isOver = true →
    ∃ k s'' fx'', s.visit k later = some (s'', fx'') ∧ s''.isOver = true ∧
      fx''.events = fx.events ∧ fx''.plans = fx.plans
  /-- An event that is not over does the rest at a later visit. -/
  onward : ∀ {s s' s'' : Slot ε} {now later : Beat} {n m : Nat} {fx fx' : Effects ε},
    s.Holds W → now ≤ later → s.visit n now = some (s', fx) → s'.isOver = false →
    s'.visit m later = some (s'', fx') →
    ∃ k fx'', s.visit k later = some (s'', fx'') ∧
      fx''.events = fx.events ++ fx'.events ∧ fx''.plans = fx.plans + fx'.plans
  /-- An event that wants to go does so quietly. -/
  retire : ∀ {s s' : Slot ε} {now : Beat} {n : Nat} {fx : Effects ε}, W s.event →
    s.retire n now = some (s', fx) →
    s'.live = s.live ∧ fx.events = [] ∧ fx.firings = []

namespace Settles

variable {W : ε → Prop} {now later : Beat} {line line' : List (Slot ε)}
  {live live' : Multiset (Slot ε)} {plans plans' : Multiset (String × Cue.Kind × Beat)}

theorem holds_fresh {es : List ε} (h : ∀ e ∈ es, W e) : ∀ s ∈ fresh es, s.Holds W := by
  intro s hs
  obtain ⟨e, he, rfl⟩ := List.mem_map.1 hs
  exact ⟨h e he, rfl⟩

/-- What is on the line after a visit to its first slot is as it was. -/
theorem holds_rest (hW : Patient W) {fuel : Nat} {s s' : Slot ε} {fx : Effects ε}
    (hline : ∀ x ∈ s :: line, x.Holds W) (h : s.visit fuel now = some (s', fx)) :
    ∀ x ∈ fresh fx.events ++ line, x.Holds W := by
  obtain ⟨hs, hrest⟩ := List.forall_mem_cons.1 hline
  exact List.forall_mem_append.2 ⟨holds_fresh (hW.within hs h).2, hrest⟩

/-- What a line settles to is determined. -/
theorem unique (hW : Patient W) (hline : ∀ s ∈ line, s.Holds W) (h : Settles now line live plans)
    (h' : Settles now line live' plans') : live = live' ∧ plans = plans' := by
  induction h generalizing live' plans' with
  | nil =>
    cases h'
    exact ⟨rfl, rfl⟩
  | cons visit _ ih =>
    cases h' with
    | cons visit' rest' =>
      obtain ⟨rfl, rfl⟩ := Prod.mk.inj (hW.agree (hline _ List.mem_cons_self) visit visit')
      obtain ⟨rfl, rfl⟩ := ih (holds_rest hW hline visit) rest'
      exact ⟨rfl, rfl⟩

/-- What stays of a line is as it was. -/
theorem holds (hW : Patient W) (hline : ∀ s ∈ line, s.Holds W)
    (h : Settles now line live plans) : ∀ s ∈ live, s.Holds W := by
  induction h with
  | nil => exact fun s hs => absurd hs (Multiset.notMem_zero s)
  | @cons fuel s s' fx line live plans visit _ ih =>
    intro x hx
    rcases Multiset.mem_add.1 hx with hx | hx
    · cases hover : s'.isOver with
      | true => simp [Slot.live, hover] at hx
      | false =>
        obtain rfl : x = s' := by simpa [Slot.live, hover] using hx
        exact ⟨(hW.within (hline s List.mem_cons_self) visit).1, (Bool.or_eq_false_iff.1 hover).1⟩
    · exact ih (holds_rest hW hline visit) x hx

/-- Settling a line at a beat is needless if what stays of it settles at a later one. -/
theorem of_le (hW : Patient W) (hle : now ≤ later) (hline : ∀ s ∈ line, s.Holds W)
    (h : Settles now line live plans) (hlive : (line' : Multiset (Slot ε)) = live)
    (h' : Settles later line' live' plans') : Settles later line live' (plans + plans') := by
  induction h generalizing line' live' plans' with
  | nil =>
    obtain rfl := (Multiset.coe_eq_zero _).1 hlive
    rwa [zero_add]
  | @cons fuel s s' fx line live plans visit _ ih =>
    have hs := hline s List.mem_cons_self
    have htail := holds_rest hW hline visit
    cases hover : s'.isOver with
    | true =>
      -- the slot is over, and all that stays comes from the others
      rw [Slot.live, if_pos hover, zero_add] at hlive
      obtain ⟨k, s'', fx'', hvisit, hover', hevents, hplans⟩ := hW.finished hs hle visit hover
      have hrest := ih htail hlive h'
      rw [← hevents] at hrest
      have hall := Settles.cons hvisit hrest
      rw [Slot.live, if_pos hover', zero_add, hplans, ← add_assoc] at hall
      exact hall
    | false =>
      -- the slot stays, and its later visit is cut off from those of the others
      obtain ⟨others, rfl⟩ : ∃ others : List (Slot ε), live = others :=
        (Quot.exists_rep live).imp fun _ h => h.symm
      rw [Slot.live, if_neg (by simp [hover])] at hlive
      have hperm : line'.Perm (s' :: others) := by
        rw [← Multiset.coe_eq_coe, hlive]
        rfl
      cases h'.perm hperm with
      | @cons _ _ s'' fx' _ _ _ visit' hrest =>
        obtain ⟨l, p, l', p', hl, hl', rfl, rfl⟩ := hrest.split
        obtain ⟨k, fx'', hvisit, hevents, hplans⟩ := hW.onward hs hle visit hover visit'
        have hboth := (ih htail rfl hl').append hl
        have hperm' : (fresh fx.events ++ line ++ fresh fx'.events).Perm
            (fresh fx''.events ++ line) := by
          rw [hevents, fresh_append, List.append_assoc, List.append_assoc]
          exact List.perm_append_comm.append_left _
        have hall := Settles.cons hvisit (hboth.perm hperm')
        convert hall using 1
        · rw [add_comm l']
        · rw [hplans]
          abel

end Settles

/-! ## Whole ticks -/

variable {W : ε → Prop}

theorem within_of_runLine_visit (hW : Patient W) {fuel : Nat} {now : Beat}
    {line line' : List (Slot ε)} {fx : Effects ε} (hline : ∀ s ∈ line, s.Holds W)
    (h : runLine (Slot.visit fuel now) line = some (line', fx)) :
    (∀ s ∈ line', W s.event) ∧ ∀ e ∈ fx.events, W e := by
  induction line generalizing line' fx with
  | nil =>
    cases h
    exact ⟨List.forall_mem_nil _, List.forall_mem_nil _⟩
  | cons s line ih =>
    obtain ⟨s', fx₁, rest, fx₂, hs, hrest, rfl, rfl⟩ := exists_of_runLine_cons h
    obtain ⟨hs', hfx₁⟩ := hW.within (hline s List.mem_cons_self) hs
    obtain ⟨hrest', hfx₂⟩ := ih (fun x hx => hline x (List.mem_cons_of_mem _ hx)) hrest
    refine ⟨List.forall_mem_cons.2 ⟨hs', hrest'⟩, ?_⟩
    rw [Effects.events_append]
    exact List.forall_mem_append.2 ⟨hfx₁, hfx₂⟩

theorem within_of_visitAll (hW : Patient W) {fuel waves : Nat} {now : Beat}
    {line line' : List (Slot ε)} {fx : Effects ε} (hline : ∀ s ∈ line, s.Holds W)
    (h : visitAll fuel now waves line = some (line', fx)) : ∀ s ∈ line', W s.event := by
  induction waves generalizing line line' fx with
  | zero => cases h
  | succ waves ih =>
    obtain ⟨first, fx₁, hfirst, ⟨-, rfl, rfl⟩ | ⟨later, fx₂, hlater, rfl, rfl⟩⟩ :=
      exists_of_visitAll_succ h
    · exact (within_of_runLine_visit hW hline hfirst).1
    · obtain ⟨hfirst', hfx₁⟩ := within_of_runLine_visit hW hline hfirst
      exact List.forall_mem_append.2 ⟨hfirst', ih (Settles.holds_fresh hfx₁) hlater⟩

theorem live_of_runLine_retire (hW : Patient W) {fuel : Nat} {now : Beat}
    {line line' : List (Slot ε)} {fx : Effects ε} (hline : ∀ s ∈ line, W s.event)
    (h : runLine (Slot.retire fuel now) line = some (line', fx)) :
    living line' = living line ∧ fx.events = [] ∧ fx.firings = [] := by
  induction line generalizing line' fx with
  | nil =>
    cases h
    exact ⟨rfl, rfl, rfl⟩
  | cons s line ih =>
    obtain ⟨s', fx₁, rest, fx₂, hs, hrest, rfl, rfl⟩ := exists_of_runLine_cons h
    obtain ⟨hlive, hevents, hfirings⟩ := hW.retire (hline s List.mem_cons_self) hs
    obtain ⟨hlive', hevents', hfirings'⟩ :=
      ih (fun x hx => hline x (List.mem_cons_of_mem _ hx)) hrest
    refine ⟨?_, ?_, ?_⟩
    · rw [living_cons, living_cons, hlive, hlive']
    · rw [Effects.events_append, hevents, hevents', List.append_nil]
    · rw [Effects.firings_append, hfirings, hfirings', List.append_nil]

/-- The plans of what has fired. -/
def plans (t : Timeline ε) : Multiset (String × Cue.Kind × Beat) :=
  (t.log.map Firing.plan : List _)

theorem plans_of_log {t t' : Timeline ε} {fx : Effects ε}
    (h : t'.log = fx.firings.reverse ++ t.log) : t'.plans = fx.plans + t.plans := by
  rw [plans, h, List.map_append, List.map_reverse, plans, Effects.plans,
    Multiset.coe_add]
  exact Multiset.coe_eq_coe.2 ((List.reverse_perm _).append_right _)

/-- A tick settles the line of the host. -/
theorem settles_of_process (hW : Patient W) {fuel : Nat} {t t' : Timeline ε}
    {notices : List Notice} (hline : ∀ s ∈ t.slots, s.Holds W)
    (h : t.process fuel = some (t', notices)) :
    ∃ plans, Settles t.clock.beat t.slots t'.slots plans ∧ t'.plans = plans + t.plans := by
  obtain ⟨line, fx, line', fx', hvisit, hretire, rfl, -⟩ := exists_sweep_of_process h
  obtain ⟨hsettles, hevents⟩ := settles_of_visitAll hvisit
  obtain ⟨hlive, hevents', hfirings'⟩ :=
    live_of_runLine_retire hW (within_of_visitAll hW hline hvisit) hretire
  refine ⟨fx.plans, ?_, ?_⟩
  · rw [← hlive] at hsettles
    rw [hevents', fresh_nil, List.append_nil]
    exact hsettles
  · have hquiet : fx'.plans = 0 := by rw [Effects.plans, hfirings']; rfl
    rw [plans_of_log rfl, Effects.plans_append, hquiet, add_zero]

end Timeline

end Downbeat
