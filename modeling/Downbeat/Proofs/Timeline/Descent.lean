import Downbeat.Proofs.Script.Conservation
import Downbeat.Proofs.Script.Nesting
import Downbeat.Proofs.Timeline.Account
import Downbeat.Proofs.Timeline.Granularity
import Downbeat.Proofs.Timeline.Separation

/-!
# Where nested scripts put their cues

A cue of a show may come from a script that comes from a script, and so on. An event with its line
(`Kin`) carries the scripts that it comes from, each as it was written and with the pass that led
on (`Generation`). Without their lines the events do the same (`Kin.projects`), so the history of a
host of such events tells where the events of a plain host come from.

Down a line each script starts at its own start after the time of the one before
(`Descends.relative`), and a script is placed as the new script that stands alone there
(`Descends.standalone`). `Chronicle.relative_of_run` says so of all events that there have ever
been on a time line.
-/

set_option linter.unusedSectionVars false

namespace Downbeat

open Script

variable {α κ φ : Type}

/-! ## Lines of descent -/

/-- A script as it was written, and the pass in which it handed over what comes next. -/
structure Generation (κ φ : Type) where
  script : Script (Event κ φ) φ
  pass : Pass (Event κ φ) φ

/-- The beats by which the generation moves what it hands over : the start of the script as it was
written, and the time of the script at the pass. -/
def Generation.offset (g : Generation κ φ) : ℚ :=
  Beat.value g.script.start + Beat.value g.pass.script.internal

variable [Placed κ] [Hosted κ (Event κ φ)] [Subroutine φ (Event κ φ)] [Described φ]

/-- No sum is rounded, and the scripts that are handed over are idle. -/
structure Generation.IsFair (g : Generation κ φ) : Prop where
  time : ¬Beat.IsMinusZero g.script.internal
  exact : g.pass.IsExact
  adopting : g.pass.IsAdopting

instance (g : Generation κ φ) : Decidable g.IsFair :=
  decidable_of_iff (¬Beat.IsMinusZero g.script.internal ∧ g.pass.IsExact ∧ g.pass.IsAdopting)
    ⟨fun ⟨htime, hexact, hadopting⟩ => ⟨htime, hexact, hadopting⟩,
      fun ⟨htime, hexact, hadopting⟩ => ⟨htime, hexact, hadopting⟩⟩

/-- An event that was written as the first event comes down the line, and is placed as the second
event. -/
inductive Descends : List (Generation κ φ) → Event κ φ → Event κ φ → Prop
  | root (e : Event κ φ) : Descends [] e e
  | child {line : List (Generation κ φ)} {w s t : Script (Event κ φ) φ}
      {before later : List (Pass (Event κ φ) φ)} {p : Pass (Event κ φ) φ} {e : Event κ φ}
      (parent : Descends line (.script w) (.script s)) (leads : Leads s (before ++ p :: later) t)
      (entry : p.entry = .event e) :
      Descends (line ++ [⟨w, p⟩]) e (Placed.moveTo (p.due e) e)

namespace Descends

variable {line : List (Generation κ φ)} {e placed : Event κ φ}

theorem exists_of_script {s : Script (Event κ φ) φ} (h : Descends line e (.script s)) :
    ∃ w, e = .script w := by
  generalize hplaced : Event.script s = placed at h
  cases h with
  | root => exact ⟨s, hplaced.symm⟩
  | @child _ _ _ _ _ _ p e =>
    cases e with
    | script w => exact ⟨w, rfl⟩
    | _ => cases hplaced

/-- What became of the beats of an event down its line : those of a cue, and the start of a
script. -/
theorem relative (h : Descends line e placed) (hfair : ∀ g ∈ line, g.IsFair) :
    (∀ c, e = .cue c → ∃ b, placed = .cue { c with beat := b } ∧
      Beat.value b = Beat.value c.beat + (line.map Generation.offset).sum) ∧
    ∀ w, e = .script w → ∃ s, placed = .script s ∧ s.internal = w.internal ∧
      Beat.value s.start = Beat.value w.start + (line.map Generation.offset).sum := by
  induction h with
  | root e =>
    refine ⟨fun c hc => ⟨c.beat, hc, ?_⟩, fun w hw => ⟨w, hw, rfl, ?_⟩⟩
    · simp
    · simp
  | @child line w s t before later p e parent leads entry ih =>
    obtain ⟨hline, hlast⟩ := List.forall_mem_append.1 hfair
    obtain ⟨-, hexact, hadopting⟩ := List.forall_mem_singleton.1 hlast
    obtain ⟨_, hs, -, hstart⟩ := (ih hline).2 w rfl
    obtain rfl := Event.script.inj hs
    have hsum : ((line ++ [(⟨w, p⟩ : Generation κ φ)]).map Generation.offset).sum =
        Beat.value p.script.start + Beat.value p.script.internal := by
      rw [leads.time_at.1, hstart, List.map_append, List.sum_append, List.map_singleton,
        List.sum_singleton, Generation.offset]
      ring
    constructor
    · rintro c rfl
      refine ⟨p.due (.cue c), rfl, ?_⟩
      rw [(Pass.value_due hexact entry).2, hsum, add_assoc]
      rfl
    · rintro c rfl
      obtain ⟨-, hvalue⟩ := value_start_moveTo entry hexact hadopting
      have hbegun : c.begun = false := by
        simp only [Pass.IsAdopting, entry] at hadopting
        exact hadopting.1.begun
      refine ⟨_, congrArg Event.script (moveTo_of_begun_eq_false hbegun _), rfl, ?_⟩
      rw [hvalue, hsum, add_assoc]

/-- A script that comes down a line is placed as the new script that starts by the start and the
time of the last script of the line later. -/
theorem standalone {g : Generation κ φ} {w : Script (Event κ φ) φ}
    (h : Descends (line ++ [g]) (.script w) placed) (hfair : ∀ x ∈ line ++ [g], x.IsFair) :
    placed =
      .script (w.standalone (g.pass.script.start + g.pass.script.internal)) := by
  generalize hwhole : line ++ [g] = whole at h
  generalize he : Event.script w = e at h
  cases h with
  | root => simp at hwhole
  | @child line' w' s t before later p e parent leads entry =>
    obtain ⟨rfl, hg⟩ := List.append_inj' hwhole rfl
    obtain rfl := List.singleton_inj.1 hg
    subst he
    obtain ⟨hline, hlast⟩ := List.forall_mem_append.1 hfair
    obtain ⟨htime, hexact, hadopting⟩ := List.forall_mem_singleton.1 hlast
    obtain ⟨_, hs, hinternal, -⟩ := (parent.relative hline).2 w' rfl
    obtain rfl := Event.script.inj hs
    have hnot : ¬Beat.IsMinusZero p.script.internal := by
      rw [leads.time_at.2.2]
      refine not_isMinusZero_elapsed ?_ _
      rw [hinternal]
      exact htime
    exact congrArg Event.script (moveTo_eq_standalone entry hexact hadopting hnot)

end Descends

/-- The second event is what may become of the first one on the time line. A script may have been
stopped by a fault. -/
def Becomes : Event κ φ → Event κ φ → Prop
  | .cue c, e => e = .cue c
  | .script s, e => ∃ ps t, Leads s ps t ∧ (e = .script t ∨ e = .script t.stop.1)
  | .guest _, e => ∃ k, e = .guest k

theorem Becomes.refl (e : Event κ φ) : Becomes e e := by
  cases e with
  | cue c => exact rfl
  | script s => exact ⟨[], s, .refl s, .inl rfl⟩
  | guest k => exact ⟨k, rfl⟩

/-- An event that has become a script was placed as one. -/
theorem Becomes.exists_of_script {placed : Event κ φ} {s : Script (Event κ φ) φ}
    (h : Becomes placed (.script s)) :
    ∃ s₀ ps t, placed = .script s₀ ∧ Leads s₀ ps t ∧ (s = t ∨ s = t.stop.1) := by
  cases placed with
  | cue c => cases (show Event.script s = .cue c from h)
  | script s₀ =>
    obtain ⟨ps, t, hleads, ht⟩ := h
    exact ⟨s₀, ps, t, rfl, hleads, ht.imp Event.script.inj Event.script.inj⟩
  | guest k =>
    obtain ⟨k', hk⟩ := h
    cases hk

/-- What has become a guest may become any other. -/
theorem Becomes.guest {placed : Event κ φ} {g g' : κ} (h : Becomes placed (.guest g)) :
    Becomes placed (.guest g') := by
  cases placed with
  | cue c => cases (show Event.guest g = .cue c from h)
  | script s =>
    obtain ⟨ps, t, -, ht | ht⟩ := h
    · cases ht
    · cases ht
  | guest k => exact ⟨g', rfl⟩

/-- A script that ticks becomes what it is after the tick, and the passes of the tick are in the
chain of its passes. -/
theorem Becomes.tick {placed : Event κ φ} {s s' : Script (Event κ φ) φ} {fuel : Nat} {now : Beat}
    {fx : Effects (Event κ φ)} (h : Becomes placed (.script s))
    (ht : s.tick fuel now = some (s', fx)) : Becomes placed (.script s') ∧
      ∃ s₀ ps t, placed = .script s₀ ∧ Leads s₀ (ps ++ s.passes now fuel 0) t := by
  obtain ⟨s₀, ps, t, rfl, hleads, hs⟩ := h.exists_of_script
  obtain ⟨d, hd, rfl, -⟩ := exists_of_tick ht
  have hdrain := (leads_of_drainFrom hd).1
  rcases hs with rfl | rfl
  · refine ⟨⟨_, d.script, hleads.trans hdrain, ?_⟩, s₀, ps, d.script, rfl, hleads.trans hdrain⟩
    rw [Drained.left]
    split
    · exact .inl rfl
    · exact .inr rfl
  · -- a stopped script gets to nothing, and stays as it is
    have hstopped : t.stop.1.stopped = true := rfl
    obtain rfl := eq_of_drainFrom_of_idle (.inl (isReady_of_stopped hstopped now)) hd
    refine ⟨⟨ps, t, hleads, .inr rfl⟩, s₀, ps, t, rfl, ?_⟩
    rw [(hdrain.of_stopped hstopped).1, List.append_nil]
    exact hleads

/-! ## What events do -/

namespace Event

variable {fuel : Nat} {m : Moment} {now : Beat} {e : Event κ φ} {fx : Effects (Event κ φ)}

/-- A cue stays as it is, brings on nothing, and fires what it is. -/
theorem act_cue {c : Cue} (h : Hosted.act fuel m now (cue c : Event κ φ) = some (e, fx)) :
    e = cue c ∧ fx.events = [] ∧ ∀ f ∈ fx.firings, f = c.firing now := by
  cases m <;> cases h <;> simp

/-- A script acts only by its ticks. -/
theorem act_script {s : Script (Event κ φ) φ}
    (h : Hosted.act fuel m now (script s) = some (e, fx)) :
    (m ≠ .update ∧ e = script s ∧ fx = {}) ∨
      (m = .update ∧ ∃ s', e = script s' ∧ s.tick fuel now = some (s', fx)) := by
  cases m with
  | update =>
    obtain ⟨⟨s', fx'⟩, htick, hx⟩ := Option.map_eq_some_iff.1 h
    obtain ⟨rfl, rfl⟩ := Prod.mk.inj hx
    exact .inr ⟨rfl, s', rfl, htick⟩
  | _ =>
    cases h
    exact .inl ⟨nofun, rfl, rfl⟩

/-- A guest stays a guest. -/
theorem act_guest {g : κ} (h : Hosted.act fuel m now (guest g) = some (e, fx)) :
    ∃ g', e = guest g' := by
  obtain ⟨⟨g', fx'⟩, -, hx⟩ := Option.map_eq_some_iff.1 h
  exact ⟨g', (Prod.mk.inj hx).1.symm⟩

end Event

/-! ## Events with their lines -/

/-- An event with the scripts that it comes from. -/
structure Kin (κ φ : Type) where
  event : Event κ φ
  /-- The event as it was placed on the time line. -/
  placed : Event κ φ
  /-- The event as it was written. -/
  written : Event κ φ
  /-- The scripts that the event comes from, outermost first. -/
  line : List (Generation κ φ)

namespace Kin

/-- An event that comes from no script. -/
def root (e : Event κ φ) : Kin κ φ := ⟨e, e, e, []⟩

/-- The script as it was written that is now `s`. -/
def author (k : Kin κ φ) (s : Script (Event κ φ) φ) : Script (Event κ φ) φ :=
  match k.written with
  | .script w => w
  | _ => s

/-- What a pass of the script brings on. -/
def children (k : Kin κ φ) (s : Script (Event κ φ) φ) (p : Pass (Event κ φ) φ) :
    List (Kin κ φ) :=
  match p.entry with
  | .event e =>
    [⟨Placed.moveTo (p.due e) e, Placed.moveTo (p.due e) e, e, k.line ++ [⟨k.author s, p⟩]⟩]
  | _ => []

/-- The events that the event brings on at a moment, with their lines. -/
def heirs (fuel : Nat) (m : Moment) (now : Beat) (k : Kin κ φ) (es : List (Event κ φ)) :
    List (Kin κ φ) :=
  match m, k.event with
  | .update, .script s => (s.passes now fuel 0).flatMap (k.children s)
  | _, _ => es.map root

instance : Placed (Kin κ φ) where
  beat k := Placed.beat k.event
  moveTo b k := { k with event := Placed.moveTo b k.event }
  refusal b k := Placed.refusal b k.event

instance : Hosted (Kin κ φ) (Kin κ φ) where
  width k := Hosted.width (Event κ φ) k.event
  isDone k := Hosted.isDone (Event κ φ) k.event
  act fuel m now k :=
    (Hosted.act fuel m now k.event).map fun (e, fx) =>
      ({ k with event := e }, ⟨k.heirs fuel m now fx.events, fx.firings, fx.notices⟩)

theorem map_event_root (es : List (Event κ φ)) : (es.map root).map event = es := by
  simp [root, Function.comp_def]

theorem map_event_children (k : Kin κ φ) (s : Script (Event κ φ) φ) (p : Pass (Event κ φ) φ) :
    (k.children s p).map event = p.effects.events := by
  unfold children
  split
  · rename_i e he
    rw [Pass.events_of_event he]
    rfl
  · rename_i hnone
    rw [Pass.events_eq_nil hnone]
    rfl

theorem map_event_heirs {fuel : Nat} {m : Moment} {now : Beat} {k : Kin κ φ} {e : Event κ φ}
    {fx : Effects (Event κ φ)} (h : Hosted.act fuel m now k.event = some (e, fx)) :
    (k.heirs fuel m now fx.events).map event = fx.events := by
  unfold heirs
  split
  · rename_i s hs
    rw [hs] at h
    obtain ⟨⟨s', fx'⟩, htick, hfx⟩ := Option.map_eq_some_iff.1 h
    obtain ⟨-, rfl⟩ := Prod.mk.inj hfx
    obtain ⟨d, hd, -, hquiet⟩ := exists_of_tick htick
    show _ = fx'.events
    rw [Effects.events_eq_of_quiet hquiet, (leads_of_drainFrom hd).2.1, List.map_flatMap]
    simp only [map_event_children]
  · exact map_event_root _

/-- The lines change nothing. -/
theorem projects : Projects (event : Kin κ φ → Event κ φ) where
  beat _ := rfl
  width _ := rfl
  isDone _ := rfl
  act fuel m now k := by
    rw [show (Hosted.act fuel m now k : Option (Kin κ φ × Effects (Kin κ φ))) =
      (Hosted.act fuel m now k.event).map fun (e, fx) =>
        ({ k with event := e }, ⟨k.heirs fuel m now fx.events, fx.firings, fx.notices⟩) from rfl]
    cases h : (Hosted.act fuel m now k.event : Option (Event κ φ × Effects (Event κ φ))) with
    | none => rfl
    | some x =>
      obtain ⟨e, fx⟩ := x
      simp only [Option.map_some, Prod.map, Effects.map, map_event_heirs h]

/-! ## What the lines tell -/

/-- The event comes down its line to where it was placed, and has become what it is. -/
structure IsLawful (k : Kin κ φ) : Prop where
  descends : Descends k.line k.written k.placed
  becomes : Becomes k.placed k.event

/-- The firing is one of the event. -/
def HasFired (k : Kin κ φ) (f : Firing) : Prop :=
  match k.event with
  | .cue c => ∃ now, f = c.firing now
  | .script _ => False
  | .guest _ => True

theorem isLawful_root (e : Event κ φ) : (root e).IsLawful := ⟨.root e, .refl e⟩

/-- What a tick of a lawful script brings on is lawful. -/
theorem IsLawful.children {k : Kin κ φ} {s s' : Script (Event κ φ) φ} {fuel : Nat} {now : Beat}
    {fx : Effects (Event κ φ)} (hk : k.IsLawful) (hs : k.event = .script s)
    (ht : s.tick fuel now = some (s', fx)) :
    ∀ x ∈ (s.passes now fuel 0).flatMap (k.children s), x.IsLawful := by
  intro x hx
  obtain ⟨p, hp, hx⟩ := List.mem_flatMap.1 hx
  have hbecomes := hk.becomes
  rw [hs] at hbecomes
  obtain ⟨-, s₀, ps, t, hplaced, hleads⟩ := hbecomes.tick ht
  have hdescends := hk.descends
  rw [hplaced] at hdescends
  obtain ⟨w, hw⟩ := hdescends.exists_of_script
  have hauthor : k.author s = w := by rw [author, hw]
  rw [hw] at hdescends
  obtain ⟨before, later, hsplit⟩ := List.append_of_mem hp
  rw [hsplit, ← List.append_assoc] at hleads
  unfold Kin.children at hx
  split at hx
  · rename_i e he
    obtain rfl := List.mem_singleton.1 hx
    rw [hauthor]
    exact ⟨.child hdescends hleads he, .refl _⟩
  · cases hx

/-- Events stay lawful when they act, and fire what they are. -/
theorem keeps : Keeps (IsLawful (κ := κ) (φ := φ)) HasFired := by
  intro fuel m now k k' fx h
  obtain ⟨⟨e', fx⟩, he, hk'⟩ := Option.map_eq_some_iff.1 h
  obtain ⟨rfl, rfl⟩ := Prod.mk.inj hk'
  obtain ⟨e, placed, written, line⟩ := k
  cases e with
  | cue c =>
    obtain ⟨rfl, hevents, hfirings⟩ := Event.act_cue he
    refine ⟨fun hk => ⟨hk, ?_⟩, fun f hf => ⟨now, hfirings f hf⟩, fun f hf => hf⟩
    simp [heirs, hevents]
  | script s =>
    rcases Event.act_script he with ⟨hm, rfl, rfl⟩ | ⟨rfl, s', rfl, htick⟩
    · refine ⟨fun hk => ⟨hk, ?_⟩, nofun, fun f hf => hf⟩
      cases m <;> simp [heirs] at hm ⊢
    · obtain ⟨d, hd, -, hquiet⟩ := exists_of_tick htick
      refine ⟨fun hk => ⟨⟨hk.descends, (hk.becomes.tick htick).1⟩, hk.children rfl htick⟩, ?_,
        fun f hf => hf⟩
      have hfirings : fx.firings = d.effects.firings := (Effects.mk.inj hquiet).2.1
      simp [hfirings, (drains_of_drainFrom hd).firings]
  | guest g =>
    obtain ⟨g', rfl⟩ := Event.act_guest he
    refine ⟨fun hk => ⟨⟨hk.descends, hk.becomes.guest⟩, ?_⟩, fun f hf => trivial,
      fun f hf => trivial⟩
    have hheirs : heirs fuel m now ⟨.guest g, placed, written, line⟩ fx.events =
        fx.events.map root := by
      cases m <;> rfl
    intro x hx
    rw [hheirs] at hx
    obtain ⟨e, -, rfl⟩ := List.mem_map.1 hx
    exact isLawful_root e

/-- What is known of an event by the scripts that it comes from. -/
structure IsRelative (k : Kin κ φ) : Prop extends k.IsLawful where
  /-- A script was placed as the new script that starts by the start and the time of its parent
  later. -/
  standalone : (∀ g ∈ k.line, g.IsFair) → ∀ line g w, k.line = line ++ [g] →
    k.written = .script w →
      k.placed = .script (w.standalone (g.pass.script.start + g.pass.script.internal))
  /-- A cue is at its beat as it was written, later by the starts of all the scripts, as they were
  written, and by their times. -/
  cue : (∀ g ∈ k.line, g.IsFair) → ∀ c, k.written = .cue c →
    ∃ b, k.event = .cue { c with beat := b } ∧
      Beat.value b = Beat.value c.beat + (k.line.map Generation.offset).sum

theorem IsLawful.isRelative {k : Kin κ φ} (h : k.IsLawful) : k.IsRelative where
  toIsLawful := h
  standalone hfair line g w hline hwritten := by
    have hdescends := h.descends
    rw [hwritten, hline] at hdescends
    rw [hline] at hfair
    exact hdescends.standalone hfair
  cue hfair c hwritten := by
    obtain ⟨b, hplaced, hvalue⟩ := (h.descends.relative hfair).1 c hwritten
    have hbecomes := h.becomes
    rw [hplaced] at hbecomes
    exact ⟨b, hbecomes, hvalue⟩

end Kin

/-! ## The history of a time line -/

theorem Timeline.map_event_root (t : Timeline (Event κ φ)) :
    (t.map Kin.root).map Kin.event = t := by
  obtain ⟨clock, slots, log⟩ := t
  simp [Timeline.map, Slot.map, Kin.root, Function.comp_def]

theorem Deed.map_event_root (deeds : List (Deed α (Event κ φ))) :
    (deeds.map (Deed.map Kin.root)).map (Deed.map Kin.event) = deeds := by
  rw [List.map_map]
  refine (List.map_congr_left fun d _ => ?_).trans (List.map_id deeds)
  cases d <;> rfl

namespace Chronicle

/-- Whatever a host does, and whatever its events are, nested to any depth : each event that there
has been on its time line is relative to the scripts that it comes from, and what has fired is what
one of these events was to fire. -/
theorem relative_of_run {t t' : Timeline (Event κ φ)} {owners logOwners : List α}
    (howners : owners.length = t.slots.length) (hlog : logOwners.length = t.log.length)
    {deeds : List (Deed α (Event κ φ))} (ht : t.run deeds = some t') :
    ∃ c : Chronicle α (Kin κ φ),
      (ofTimeline (t.map Kin.root) owners logOwners).run (deeds.map (Deed.map Kin.root)) =
        some c ∧
      c.timeline.map Kin.event = t' ∧ (∀ l ∈ c.live ++ c.gone, l.slot.event.IsRelative) ∧
      ∀ x ∈ c.log, x ∈ logOwners.zip t.log ∨
        ∃ l ∈ c.live ++ c.gone, l.owner = x.1 ∧ l.slot.event.HasFired x.2 := by
  have hlength : owners.length = (t.map Kin.root).slots.length :=
    howners.trans (List.length_map _).symm
  have hrun : ((t.map Kin.root).run (deeds.map (Deed.map Kin.root))).map
      (Timeline.map Kin.event) = some t' := by
    rw [← Kin.projects.deeds_map, Timeline.map_event_root, Deed.map_event_root, ht]
  obtain ⟨t₁, ht₁, rfl⟩ := Option.map_eq_some_iff.1 hrun
  have hstart : (ofTimeline (t.map Kin.root) owners logOwners).timeline = t.map Kin.root :=
    timeline_ofTimeline hlength hlog
  rw [← hstart, ← timeline_run] at ht₁
  obtain ⟨c, hc, rfl⟩ := Option.map_eq_some_iff.1 ht₁
  refine ⟨c, hc, rfl, ?_⟩
  have haccounts : (ofTimeline (t.map Kin.root) owners logOwners).Accounts Kin.IsLawful
      Kin.HasFired (logOwners.zip t.log) := by
    refine ⟨fun l hl => ?_, fun x hx => .inl hx⟩
    rw [show (ofTimeline (t.map Kin.root) owners logOwners).gone = [] from rfl,
      List.append_nil] at hl
    obtain ⟨⟨owner, slot⟩, hzip, rfl⟩ := List.mem_map.1 hl
    obtain ⟨s, -, rfl⟩ := List.mem_map.1 (List.of_mem_zip hzip).2
    exact Kin.isLawful_root s.event
  have hend := haccounts.run Kin.keeps (fun owner k hk => ?_) hc
  · exact ⟨fun l hl => (hend.lives l hl).isRelative, hend.log⟩
  · obtain ⟨d, -, hd⟩ := List.mem_map.1 hk
    cases d with
    | add owner e =>
      obtain ⟨-, rfl⟩ := Deed.add.inj hd
      exact Kin.isLawful_root e
    | tick fuel k => cases hd

/-- A script within a script that stops before the inner one begins, each working ahead by another
length. -/
def storey : Script Playback.ShowEvent Phase :=
  { start := 1
    runahead := 4
    queue := .ofList [.rest 0.5, .event (.script
      { start := 2
        runahead := 1.5
        queue := .ofList [.rest 0.25, .event (.script
          { start := 3
            runahead := 0.75
            queue := .ofList [.rest 0.125, .cue (.light "dusk" "blue")] }), .stop] }), .stop] }

/-- A host with nested scripts, that has noted a firing. -/
def tower : Timeline Playback.ShowEvent where
  slots := [{ event := .script storey }]
  log := [⟨"before", .stem "bass", 0, 0⟩]

/-- Some ticks, and one more script in between. -/
def climbing : List (Deed Bool Playback.ShowEvent) :=
  [.tick 30 .process, .tick 30 (.advance 2), .add false (.script Timeline.failing),
    .tick 30 (.advanceTo 6), .tick 30 (.advanceSeconds 2 120)]

theorem relative_of_run_climbing : ∃ t', tower.run climbing = some t' ∧
    (∃ f ∈ t'.log, f.label = "dusk" ∧ f.scheduled = 6.875) ∧
    ∃ c : Chronicle Bool (Kin Empty Phase),
      (ofTimeline (tower.map Kin.root) [true] [true]).run (climbing.map (Deed.map Kin.root)) =
        some c ∧
      (∃ l ∈ c.live ++ c.gone, l.slot.event.line.length = 3 ∧
        ∀ g ∈ l.slot.event.line, g.IsFair) ∧
      c.timeline.map Kin.event = t' ∧ (∀ l ∈ c.live ++ c.gone, l.slot.event.IsRelative) ∧
      ∀ x ∈ c.log, x ∈ [true].zip tower.log ∨
        ∃ l ∈ c.live ++ c.gone, l.owner = x.1 ∧ l.slot.event.HasFired x.2 := by
  have hrun : (tower.run climbing).any (fun t' =>
      decide (∃ f ∈ t'.log, f.label = "dusk" ∧ f.scheduled = 6.875)) = true := by
    decide +kernel
  obtain ⟨t', ht', hdusk⟩ := (Option.any_eq_true _ _).1 hrun
  have howners : [true].length = tower.slots.length := rfl
  have hlog : [true].length = tower.log.length := rfl
  obtain ⟨c, hc, htimeline, hlives, hfired⟩ := relative_of_run howners hlog ht'
  have hlines : ((ofTimeline (tower.map Kin.root) [true] [true]).run
      (climbing.map (Deed.map Kin.root))).any (fun c => decide (∃ l ∈ c.live ++ c.gone,
        l.slot.event.line.length = 3 ∧ ∀ g ∈ l.slot.event.line, g.IsFair)) = true := by
    decide +kernel
  rw [hc] at hlines
  exact ⟨t', ht', of_decide_eq_true hdusk, c, hc, of_decide_eq_true hlines, htimeline, hlives,
    hfired⟩

end Chronicle

end Downbeat
