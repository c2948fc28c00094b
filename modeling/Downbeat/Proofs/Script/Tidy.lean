import Downbeat.Proofs.Script.Walk

/-!
# Rests of no valid length

A script is tidied (`Script.tidied`) by leaving out the rests of no valid length, in its queue and
in all that its subroutines bring on. Each rest of that kind ends a drain with a fault, and does
nothing else. So the drains of a script that are made at one beat until one of them ends well do
together what the one drain of the tidied script does, with one fault for each rest of no valid
length that they get to (`Script.exists_recovers`), and the clocks of a script are always as the
last valid rest has set them (`Script.clocks_of_drainAll`).
-/

set_option linter.unusedSectionVars false

namespace Downbeat

variable {ε φ : Type}

/-! ## Tidied scripts -/

/-- A subroutine without the rests of no valid length in what it brings on. -/
structure Tidied (φ : Type) where
  untidy : φ

/-- The entry, unless it is a rest of no valid length. -/
def Entry.tidied : Entry ε φ → Option (Entry ε (Tidied φ))
  | .event e => some (.event e)
  | .rest d => if Script.IsValidRest d then some (.rest d) else none
  | .expand f => some (.expand ⟨f⟩)
  | .marker m => some (.marker m)
  | .stop => some .stop

instance [Subroutine φ ε] : Subroutine (Tidied φ) ε where
  expand f c rolls :=
    let (es, rolls) := Subroutine.expand f.untidy c rolls
    (es.filterMap Entry.tidied, rolls)

instance [Described φ] : Described (Tidied φ) where
  description f := Described.description f.untidy

theorem Entry.tidied_eq_none_iff {e : Entry ε φ} : e.tidied = none ↔ e.fault? ≠ none := by
  cases e with
  | rest d => by_cases hd : Script.IsValidRest d <;> simp [tidied, fault?, hd]
  | _ => simp [tidied, fault?]

theorem Entry.fault?_of_tidied {e : Entry ε φ} {e' : Entry ε (Tidied φ)}
    (h : e.tidied = some e') : e'.fault? = none := by
  cases e with
  | rest d =>
    by_cases hd : Script.IsValidRest d
    · obtain rfl : Entry.rest d = e' := by simpa [tidied, hd] using h
      simp [fault?, hd]
    · simp [tidied, hd] at h
  | _ =>
    cases h
    rfl

namespace Script

/-- The script without the rests of no valid length. -/
def tidied (s : Script ε φ) : Script ε (Tidied φ) :=
  { s with queue := .ofList (s.queue.toList.filterMap Entry.tidied) }

/-- The script `t` is as the script `s` without the rests of no valid length. It need not have begun
when `s` has, which may have begun with a rest of that kind. -/
structure Tidies (s : Script ε φ) (t : Script ε (Tidied φ)) : Prop where
  label : t.label = s.label
  start : t.start = s.start
  runahead : t.runahead = s.runahead
  internal : t.internal = s.internal
  restUntil : t.restUntil = s.restUntil
  stopped : t.stopped = s.stopped
  rolls : t.rolls = s.rolls
  limit : t.limit = s.limit
  queue : t.queue.toList = s.queue.toList.filterMap Entry.tidied

theorem tidies_tidied (s : Script ε φ) : s.Tidies s.tidied where
  label := rfl
  start := rfl
  runahead := rfl
  internal := rfl
  restUntil := rfl
  stopped := rfl
  rolls := rfl
  limit := rfl
  queue := Queue.toList_ofList _

variable [Placed ε] [Subroutine φ ε] [Described φ]

namespace Tidies

variable {s left : Script ε φ} {t left' : Script ε (Tidied φ)} {e : Entry ε φ}
  {e' : Entry ε (Tidied φ)} {now : Beat}

theorem isReady_eq (h : s.Tidies t) (now : Beat) : t.isReady now = s.isReady now := by
  rw [isReady, isReady, h.stopped, h.restUntil]

theorem reach_eq_none (h : s.Tidies t) (hs : s.reach = none) : t.reach = none := by
  rw [reach, Option.map_eq_none_iff, Queue.next?_eq_none_iff] at hs ⊢
  rw [h.queue, hs, List.filterMap_nil]

/-- A rest of no valid length that is dropped was not there. -/
theorem skip (h : s.Tidies t) (hs : s.reach = some (e, left)) (he : e.tidied = none) :
    left.Tidies t := by
  have hqueue := h.queue
  rw [toList_of_reach hs, List.filterMap_cons_none he] at hqueue
  obtain ⟨rest, -, rfl⟩ := reach_eq_some_iff.1 hs
  exact { h with queue := hqueue }

/-- Any other entry is the first one in the tidied script as well. -/
theorem exists_reach (h : s.Tidies t) (hs : s.reach = some (e, left)) (he : e.tidied = some e') :
    ∃ left', t.reach = some (e', left') ∧ left.Tidies left' := by
  have hqueue := h.queue
  rw [toList_of_reach hs, List.filterMap_cons_some he] at hqueue
  obtain ⟨rest, -, rfl⟩ := reach_eq_some_iff.1 hs
  obtain ⟨⟨e'', left'⟩, ht⟩ : ∃ x, t.reach = some x := by
    refine Option.ne_none_iff_exists'.1 fun hnone => ?_
    rw [reach, Option.map_eq_none_iff, Queue.next?_eq_none_iff, hqueue] at hnone
    cases hnone
  rw [toList_of_reach ht] at hqueue
  obtain ⟨rfl, hrest⟩ := List.cons.inj hqueue
  obtain ⟨rest', -, rfl⟩ := reach_eq_some_iff.1 ht
  exact ⟨_, ht, { h with queue := hrest }⟩

/-- An entry does the same in the tidied script. -/
theorem done (h : s.Tidies t) (he : e.tidied = some e') (now : Beat) :
    (Pass.mk s now e).after.Tidies (Pass.mk t now e').after ∧
      (Pass.mk t now e').effects.events = (Pass.mk s now e).effects.events ∧
      (Pass.mk t now e').effects.marks = (Pass.mk s now e).effects.marks := by
  cases e with
  | rest d =>
    by_cases hd : IsValidRest d
    · obtain rfl : Entry.rest d = e' := by simpa [Entry.tidied, hd] using he
      simp only [Pass.after, Pass.effects, Pass.done, consume, if_pos hd, and_self, and_true]
      exact { h with
        internal := by rw [h.internal]
        restUntil := by rw [h.start, h.internal, h.runahead] }
    · simp [Entry.tidied, hd] at he
  | event x =>
    cases he
    have hsame : (Pass.mk t now (.event x : Entry ε (Tidied φ))).effects =
        (Pass.mk s now (.event x)).effects := by
      simp only [Pass.effects, Pass.done, consume, h.start, h.internal, h.label]
    exact ⟨h, by rw [hsame], by rw [hsame]⟩
  | expand f =>
    cases he
    have hcontext : t.context now = s.context now := by
      rw [context, context, h.start, h.runahead, h.internal]
    refine ⟨?_, rfl, rfl⟩
    simp only [Pass.after, Pass.done, consume, Subroutine.expand, hcontext, h.rolls]
    refine { h with rolls := rfl, queue := ?_ }
    simp only [enqueue, Queue.toList_append, h.queue, List.filterMap_append]
  | marker m =>
    cases he
    refine ⟨h, rfl, ?_⟩
    simp only [Pass.effects, Pass.done, consume, h.start, h.internal, h.label]
  | stop =>
    cases he
    refine ⟨{ h with stopped := rfl }, rfl, ?_⟩
    simp only [Pass.effects, Pass.done, consume, stop, h.stopped, h.internal, h.label]

/-- The rests of no valid length at the head of the queue are dropped without any effect. After
them the two scripts get to the same entry. -/
theorem exists_skim (h : s.Tidies t) (ready : s.isReady now = true) : ∃ ps s',
    Walks now s ps s' ∧ (∀ p ∈ ps, p.effects = {}) ∧ s'.Tidies t ∧ s'.isReady now = true ∧
      (s'.reach = none ∧ t.reach = none ∨ ∃ e left e' left', s'.reach = some (e, left) ∧
        e.tidied = some e' ∧ t.reach = some (e', left') ∧ left.Tidies left') := by
  induction hq : s.queue.toList generalizing s with
  | nil =>
    have hs : s.reach = none := by rwa [reach, Option.map_eq_none_iff, Queue.next?_eq_none_iff]
    exact ⟨[], s, .refl s, List.forall_mem_nil _, h, ready, .inl ⟨hs, h.reach_eq_none hs⟩⟩
  | cons x rest ih =>
    obtain ⟨⟨e, left⟩, hs⟩ : ∃ y, s.reach = some y := by
      refine Option.ne_none_iff_exists'.1 fun hnone => ?_
      rw [reach, Option.map_eq_none_iff, Queue.next?_eq_none_iff, hq] at hnone
      cases hnone
    cases he : e.tidied with
    | some e' =>
      obtain ⟨left', ht, hleft⟩ := h.exists_reach hs he
      exact ⟨[], s, .refl s, List.forall_mem_nil _, h, ready,
        .inr ⟨e, left, e', left', hs, he, ht, hleft⟩⟩
    | none =>
      obtain ⟨f, hf⟩ := Option.ne_none_iff_exists'.1 (Entry.tidied_eq_none_iff.1 he)
      have hdone : (Pass.mk left now e).done = (left, {}) := (consume_eq_error hf).2
      have hready : left.isReady now = true := by
        obtain ⟨rest, -, rfl⟩ := reach_eq_some_iff.1 hs
        exact ready
      rw [toList_of_reach hs] at hq
      obtain ⟨ps, s', hwalks, heffects, hfirst⟩ := ih (h.skip hs he) hready (List.cons.inj hq).2
      refine ⟨⟨left, now, e⟩ :: ps, s', .pass ready hs ?_, ?_, hfirst⟩
      · rwa [Pass.after, hdone]
      · exact List.forall_mem_cons.2 ⟨by rw [Pass.effects, hdone], heffects⟩

/-- What a drain of the tidied script does is a walk of the script. -/
theorem exists_walks (h : s.Tidies t) (hlimit : s.limit = none) {spent : Nat}
    {d : Drained ε (Tidied φ)} (hd : Drains now spent t d) :
    ∃ ps s', Walks now s ps s' ∧ (s'.isReady now = false ∨ s'.reach = none) ∧ s'.Tidies d.script ∧
      ps.flatMap (·.effects.events) = d.effects.events ∧
      ps.flatMap (·.effects.marks) = d.effects.marks ∧ ∃ report, d.outcome = .ok report := by
  induction hd generalizing s with
  | @idle spent t hidle =>
    cases ready : s.isReady now with
    | false => exact ⟨[], s, .refl s, .inl ready, h, rfl, rfl, _, rfl⟩
    | true =>
      rw [h.isReady_eq, ready] at hidle
      obtain ⟨ps, s', hwalks, heffects, h', -, hfirst⟩ := h.exists_skim ready
      obtain ⟨hs', -⟩ | ⟨e, left, e', left', -, -, ht, -⟩ := hfirst
      · refine ⟨ps, s', hwalks, .inr hs', h', ?_, ?_, _, rfl⟩
        · exact List.flatMap_eq_nil_iff.2 fun p hp => by rw [heffects p hp]
        · exact List.flatMap_eq_nil_iff.2 fun p hp => by rw [heffects p hp, Effects.marks_empty]
      · simp [ht] at hidle
  | putBack _ full => simp [isAtLimit, h.limit, hlimit] at full
  | dropped ready _ ht invalid =>
    -- there is no rest of no valid length in the tidied script
    rw [h.isReady_eq] at ready
    obtain ⟨ps, s', -, -, -, -, hfirst⟩ := h.exists_skim ready
    obtain ⟨-, hnone⟩ | ⟨e, left, e', left', -, he, ht', -⟩ := hfirst
    · rw [ht] at hnone
      cases hnone
    · rw [ht] at ht'
      cases ht'
      have hvalid := Entry.fault?_of_tidied he
      simp [Entry.fault?, invalid] at hvalid
  | @worked spent t left' u e' fx d ready _ ht hdone _ ih =>
    rw [h.isReady_eq] at ready
    obtain ⟨ps, s', hwalks, heffects, h', ready', hfirst⟩ := h.exists_skim ready
    obtain ⟨-, hnone⟩ | ⟨e, left, e'', left'', hs, he, ht', hleft⟩ := hfirst
    · rw [ht] at hnone
      cases hnone
    rw [ht] at ht'
    cases ht'
    have hwork : (Pass.mk left' now e').done = (u, fx) := Pass.done_of_consume hdone
    have hu : (Pass.mk left' now e').after = u := congrArg Prod.fst hwork
    have hfx : (Pass.mk left' now e').effects = fx := congrArg Prod.snd hwork
    obtain ⟨hafter, hevents, hmarks⟩ := hleft.done he now
    rw [hu] at hafter
    rw [hfx] at hevents hmarks
    have hlimit' : (Pass.mk left now e).after.limit = none := by
      rw [limit_after hs, ← h'.limit, h.limit, hlimit]
    obtain ⟨qs, s'', hwalks', hidle, h'', hevents', hmarks', report, hreport⟩ := ih hafter hlimit'
    refine ⟨ps ++ ⟨left, now, e⟩ :: qs, s'', hwalks.append (.pass ready' hs hwalks'), hidle, h'',
      ?_, ?_, Report.ofEntry e' + report, ?_⟩
    · rw [List.flatMap_append, List.flatMap_eq_nil_iff.2 fun p hp => by rw [heffects p hp],
        List.nil_append, List.flatMap_cons, ← hevents, hevents']
      rfl
    · rw [List.flatMap_append,
        List.flatMap_eq_nil_iff.2 fun p hp => by rw [heffects p hp, Effects.marks_empty],
        List.nil_append, List.flatMap_cons, ← hmarks, hmarks']
      exact (Effects.marks_append _ _).symm
    · rw [Drained.after, hreport]
      rfl

end Tidies

/-! ## The clocks of a script -/

/-- The time of the script, and the beat of the host up to which it rests. -/
def clocks (s : Script ε φ) : Beat × Beat := (s.internal, s.restUntil)

/-- The clocks as a valid rest sets them. -/
def Pass.clocks? (p : Pass ε φ) : Option (Beat × Beat) :=
  p.entry.rest?.map fun d =>
    (p.script.internal + d, p.script.start + p.script.internal + d - p.script.runahead)

theorem Pass.clocks_after (p : Pass ε φ) : p.after.clocks = p.clocks?.getD p.script.clocks := by
  cases h : p.entry with
  | rest d =>
    by_cases hd : IsValidRest d <;>
      simp [after, done, consume, clocks?, clocks, Entry.rest?, h, hd]
  | _ => simp [after, done, consume, clocks?, clocks, Entry.rest?, enqueue, stop, h]

/-- The clocks of a script are as the last valid rest has set them. -/
theorem Leads.clocks {s t : Script ε φ} {ps : List (Pass ε φ)} (h : Leads s ps t) :
    t.clocks = (ps.filterMap Pass.clocks?).getLast?.getD s.clocks := by
  induction h with
  | refl => rfl
  | putBack => rfl
  | @pass s left t e now ps _ reach _ ih =>
    obtain ⟨rest, -, rfl⟩ := reach_eq_some_iff.1 reach
    rw [ih, Pass.clocks_after]
    cases hp : (Pass.mk { s with queue := rest, begun := true } now e).clocks? with
    | none => rw [List.filterMap_cons_none hp]; rfl
    | some c => rw [List.filterMap_cons_some hp, List.getLast?_cons]; rfl

/-! ## Drains after faults -/

/-- Drains that are made until one ends well go along a walk, and all but the last of them end with
one of its faults. -/
theorem exists_drainAll_of_walks {now : Beat} {fuel : Nat} {s t : Script ε φ}
    {ps : List (Pass ε φ)} (hlimit : s.limit = none) (h : Walks now s ps t)
    (hidle : t.isReady now = false ∨ t.reach = none) (hfuel : ps.length < fuel) :
    ∃ r last, s.drainAll fuel
        (List.replicate ((ps.filterMap (·.entry.fault?)).length + 1) now) = some r ∧
      r.script = t ∧ r.passes = ps ∧
      r.outcomes = (ps.filterMap (·.entry.fault?)).map .error ++ [.ok last] := by
  induction hlength : ps.length using Nat.strong_induction_on generalizing s ps with
  | _ n ih =>
    have hroom : ∀ n, s.isAtLimit n = false := fun n => by rw [isAtLimit, hlimit]; rfl
    cases hfind : ps.find? (·.entry.fault?.isSome) with
    | none =>
      -- one drain is enough
      have hok : ∀ p ∈ ps, p.entry.fault? = none := by simpa using hfind
      have hnone : ps.filterMap (·.entry.fault?) = [] := List.filterMap_eq_nil_iff.2 hok
      obtain ⟨hdrain, hpasses⟩ := h.drainFrom_of_idle hok (fun n _ => hroom n) hfuel hidle
      rw [hnone]
      refine ⟨_, Report.tally (ps.map Pass.entry) + {},
        drainAll_of_drainFrom hdrain (Drained.script_afterAll _ _) rfl, rfl, ?_, ?_⟩
      · rw [hpasses, List.append_nil]
      · rw [Drained.outcome_afterAll]
        rfl
    | some p =>
      -- the first drain gets to the first fault
      obtain ⟨hp, before, later, rfl, hbefore⟩ := List.find?_eq_some_iff_append.1 hfind
      obtain ⟨f, hf⟩ := Option.isSome_iff_exists.1 hp
      have hok : ∀ q ∈ before, q.entry.fault? = none := by simpa using hbefore
      have hfaults : (before ++ p :: later).filterMap (·.entry.fault?) =
          f :: later.filterMap (·.entry.fault?) := by
        rw [List.filterMap_append, List.filterMap_eq_nil_iff.2 hok, List.nil_append]
        exact List.filterMap_cons_some hf
      obtain ⟨u, hto, hfrom⟩ := h.split
      obtain ⟨ready, reach, rfl, hrest⟩ := hfrom.uncons
      rw [List.length_append, List.length_cons] at hfuel hlength
      have hu : u.limit = none := hto.limit.trans hlimit
      have hfewer : before.length < fuel := by omega
      have hroom' : u.isAtLimit before.length = false := by rw [isAtLimit, hu]; rfl
      obtain ⟨hdrain, hpasses⟩ :=
        hto.drainFrom_of_fault hok (fun n _ => hroom n) hfewer ready reach hf hroom'
      have hleft : p.after = p.script := congrArg Prod.fst (consume_eq_error hf).2
      have hlimit' : p.after.limit = none := by rw [limit_after reach, hu]
      obtain ⟨r, last, hr, hscript, hrpasses, houtcomes⟩ :=
        ih later.length (by omega) hlimit' hrest (by omega) rfl
      rw [hfaults, List.length_cons, List.replicate_succ]
      refine ⟨_, last, drainAll_of_drainFrom hdrain ?_ hr, hscript, ?_, ?_⟩
      · rw [Drained.script_afterAll, hleft]
      · rw [hpasses, hrpasses, List.append_assoc]
        rfl
      · rw [houtcomes, Drained.outcome_afterAll]
        rfl

/-- The drains `r` of the script at the beat `now`, of which all but the last end with the fault of
a rest of no valid length, do together what the drain `d` of the tidied script does. -/
structure Recovers (now : Beat) (fuel : Nat) (s : Script ε φ) (r : Series ε φ)
    (d : Drained ε (Tidied φ)) : Prop where
  drains : s.drainAll fuel (List.replicate r.outcomes.length now) = some r
  /-- There is a fault for each rest of no valid length that the script gets to. -/
  outcomes : ∃ last, r.outcomes = (r.passes.filterMap (·.entry.fault?)).map .error ++ [.ok last]
  /-- The script differs from the tidied one at most in rests of no valid length to come. -/
  script : r.script.Tidies d.script
  events : r.effects.events = d.effects.events
  marks : r.effects.marks = d.effects.marks

/-- If the drain of the tidied script ends, drains of the script that are made until one ends well
do what it does. -/
theorem exists_recovers {now : Beat} {fuel : Nat} {s : Script ε φ} {d : Drained ε (Tidied φ)}
    (hlimit : s.limit = none) (h : s.tidied.drain fuel now = some d) :
    (∃ report, d.outcome = .ok report) ∧ ∃ fuel' r, s.Recovers now fuel' r d := by
  obtain ⟨d, hd, rfl⟩ := Option.map_eq_some_iff.1 h
  obtain ⟨ps, t, hwalks, hidle, ht, hevents, hmarks, hreport⟩ :=
    s.tidies_tidied.exists_walks hlimit (drains_of_drainFrom hd)
  obtain ⟨r, last, hr, rfl, rfl, houtcomes⟩ :=
    exists_drainAll_of_walks hlimit hwalks hidle (Nat.lt_succ_self _)
  refine ⟨hreport, r.passes.length + 1, r, ?_, ⟨last, houtcomes⟩, ht, ?_, ?_⟩
  · rw [houtcomes, List.length_append, List.length_map]
    exact hr
  · rw [(leads_of_drainAll hr).2.1, hevents]
    exact (List.append_nil _).symm
  · rw [marks_of_drainAll hr, hmarks, Effects.marks_append, marks_restNotice, List.append_nil]

/-- After any drains, whatever ended them, the clocks are as the last valid rest has set them. -/
theorem clocks_of_drainAll {fuel : Nat} {nows : List Beat} {s : Script ε φ} {r : Series ε φ}
    (h : s.drainAll fuel nows = some r) :
    r.script.clocks = (r.passes.filterMap Pass.clocks?).getLast?.getD s.clocks :=
  (leads_of_drainAll h).1.clocks

end Script

end Downbeat
