import Downbeat.Proofs.Encounter.Blind
import Downbeat.Proofs.Script.Passes

/-!
# Working ahead moves no event

How far a script works ahead, its limit, and the beats at which it is drained decide when it
gets to an entry, and nothing else. Two scripts of one course (`Script.SameCourse`) whose
subroutines look at neither get to the same entries at the same places, and one of them may
only be further along than the other (`Script.prefix_of_leads`). So of the events that any
drains of the two hand over, one list begins the other, and all that they hand over and
report is where it is due (`Script.events_prefix_and_isPlaced`).

Where an entry is due is told by `Series.IsPlaced` : at the start of the script plus the
rests before it, whether the drains ended well or not.
-/

set_option linter.unusedSectionVars false

namespace Downbeat.Script

variable {ε φ : Type} [Placed ε] [Subroutine φ ε] [Described φ]

/-- The scripts agree in all that decides which entries they get to and where they place
them. They need not agree in how far they work ahead, up to which beat they rest, or in
their limits. -/
structure SameCourse (s t : Script ε φ) : Prop where
  start : s.start = t.start
  internal : s.internal = t.internal
  queue : s.queue.toList = t.queue.toList
  rolls : s.rolls = t.rolls

namespace SameCourse

theorem of_reach {s t s' t' : Script ε φ} {e f : Entry ε φ} (h : s.SameCourse t)
    (hs : s.reach = some (e, s')) (ht : t.reach = some (f, t')) : e = f ∧ s'.SameCourse t' := by
  have hqueue := h.queue
  rw [toList_of_reach hs, toList_of_reach ht] at hqueue
  obtain ⟨hef, hrest⟩ := List.cons.inj hqueue
  obtain ⟨_, -, rfl⟩ := reach_eq_some_iff.1 hs
  obtain ⟨_, -, rfl⟩ := reach_eq_some_iff.1 ht
  exact ⟨hef, h.start, h.internal, hrest, h.rolls⟩

/-- Scripts of one course do the same with an entry, as far as the world is concerned. -/
theorem pass {Q : ε → Prop} {P : φ → Prop}
    (hP : Subroutine.Respects Context.SamePlace Q P) {p q : Pass ε φ}
    (h : p.script.SameCourse q.script) (he : p.entry = q.entry) (hp : p.entry.Within Q P) :
    p.after.SameCourse q.after ∧ p.effects.events = q.effects.events := by
  obtain ⟨s, now, e⟩ := p
  obtain ⟨t, later, f⟩ := q
  obtain rfl : e = f := he
  obtain ⟨hstart, hinternal, hqueue, hrolls⟩ := h
  cases e with
  | event e =>
    refine ⟨⟨hstart, hinternal, hqueue, hrolls⟩, ?_⟩
    simp_all [Pass.effects, Pass.done, consume]
  | rest d =>
    have hnone : ∀ x : ε, (.rest d : Entry ε φ) ≠ .event x := by
      intro x hx
      cases hx
    refine ⟨?_, (Pass.events_eq_nil hnone).trans (Pass.events_eq_nil hnone).symm⟩
    by_cases hd : IsValidRest d
    · constructor <;> simp_all [Pass.after, Pass.done, consume]
    · constructor <;> simp_all [Pass.after, Pass.done, consume]
  | expand f =>
    have hplace : (s.context now).SamePlace (t.context later) := ⟨hstart, hinternal⟩
    have hsame := hP.expand_eq hp hplace s.rolls
    constructor
    · constructor <;> simp_all [Pass.after, Pass.done, consume, enqueue]
    · rfl
  | marker m => exact ⟨⟨hstart, hinternal, hqueue, hrolls⟩, rfl⟩
  | stop => exact ⟨⟨hstart, hinternal, hqueue, hrolls⟩, rfl⟩

end SameCourse

theorem Within.of_pass {A : Context → Context → Prop} {Q : ε → Prop} {P : φ → Prop}
    (hP : Subroutine.Respects A Q P) {p : Pass ε φ} (hs : p.script.Within Q P)
    (he : p.entry.Within Q P) : p.after.Within Q P := by
  cases h : consume p.now p.script p.entry with
  | error f => simpa [Pass.after, Pass.done, h] using hs
  | ok r =>
    rw [Pass.after, Pass.done_of_consume h]
    exact hs.of_consume hP he h

/-- Of what two scripts of one course do along any two chains of passes, one is the
beginning of the other. -/
theorem prefix_of_leads {Q : ε → Prop} {P : φ → Prop}
    (hP : Subroutine.Respects Context.SamePlace Q P) {s t s' t' : Script ε φ}
    {ps qs : List (Pass ε φ)} (hs : s.Within Q P) (hcourse : s.SameCourse t)
    (hps : Leads s ps s') (hqs : Leads t qs t') :
    ps.flatMap (·.effects.events) <+: qs.flatMap (·.effects.events) ∨
      qs.flatMap (·.effects.events) <+: ps.flatMap (·.effects.events) := by
  induction hps generalizing t qs with
  | refl => exact .inl (List.nil_prefix)
  | putBack => exact .inl (List.nil_prefix)
  | @pass _ left _ e now _ _ hreach _ ih =>
    cases hqs with
    | refl => exact .inr (List.nil_prefix)
    | putBack => exact .inr (List.nil_prefix)
    | @pass _ left' _ _ later _ _ hreach' hrest' =>
      obtain ⟨rfl, hleft⟩ := hcourse.of_reach hreach hreach'
      obtain ⟨he, hwithin⟩ := hs.of_reach hreach
      obtain ⟨hafter, hevents⟩ :
          (Pass.mk left now e).after.SameCourse (Pass.mk left' later e).after ∧
            (Pass.mk left now e).effects.events = (Pass.mk left' later e).effects.events :=
        SameCourse.pass hP hleft rfl he
      rw [List.flatMap_cons, List.flatMap_cons, hevents, List.prefix_append_right_inj,
        List.prefix_append_right_inj]
      exact ih (hwithin.of_pass hP he) hafter hrest'

/-! ## Where entries are due -/

/-- The drains of the script `s` did what its passes did : they handed over the events that
the script got to, each at its own beat plus the start of the script plus the time that had
elapsed by the rests before it, and reported the markers at the same places. -/
structure Series.IsPlaced (s : Script ε φ) (r : Series ε φ) : Prop where
  events : r.effects.events = r.passes.flatMap (·.effects.events)
  notices : (r.passes.flatMap (·.effects.notices)).Sublist r.effects.notices
  event : ∀ {before later : List (Pass ε φ)} {p : Pass ε φ} {e : ε},
    r.passes = before ++ p :: later → p.entry = .event e → p.effects.events =
      [Placed.moveTo (Placed.beat e + s.start + elapsed s.internal (before.map Pass.entry)) e]
  marker : ∀ {before later : List (Pass ε φ)} {p : Pass ε φ} {m : Marker},
    r.passes = before ++ p :: later → p.entry = .marker m → p.effects.notices =
      [.marked s.label (s.start + elapsed s.internal (before.map Pass.entry)) m]
  other : ∀ p ∈ r.passes, (∀ e, p.entry ≠ .event e) → p.effects.events = []

theorem isPlaced_of_drainAll {fuel : Nat} {nows : List Beat} {s : Script ε φ} {r : Series ε φ}
    (h : s.drainAll fuel nows = some r) : r.IsPlaced s := by
  obtain ⟨hleads, hevents, hnotices⟩ := leads_of_drainAll h
  refine ⟨hevents, hnotices, ?_, ?_, ?_⟩
  · intro before later p e hsplit hp
    rw [hsplit] at hleads
    obtain ⟨hstart, -, hinternal⟩ := hleads.time_at
    rw [Pass.events_of_event hp, Pass.due, hstart, hinternal]
  · intro before later p m hsplit hp
    rw [hsplit] at hleads
    obtain ⟨hstart, hlabel, hinternal⟩ := hleads.time_at
    rw [Pass.notices_of_marker hp, hstart, hlabel, hinternal]
  · intro p _ hp
    exact Pass.events_eq_nil hp

/-- Of two scripts of one course that are drained at any beats, one hands over what the
other does, and then possibly more; neither moves an event by how far it works ahead. -/
theorem events_prefix_and_isPlaced {P : φ → Prop}
    (hP : Subroutine.Respects Context.SamePlace (fun _ : ε => True) P) {s t : Script ε φ}
    (hs : s.Within (fun _ => True) P) (hcourse : s.SameCourse t) {fuel fuel' : Nat}
    {nows nows' : List Beat} {r r' : Series ε φ} (hr : s.drainAll fuel nows = some r)
    (hr' : t.drainAll fuel' nows' = some r') :
    (r.effects.events <+: r'.effects.events ∨ r'.effects.events <+: r.effects.events) ∧
      r.IsPlaced s ∧ r'.IsPlaced t := by
  obtain ⟨hleads, hevents, -⟩ := leads_of_drainAll hr
  obtain ⟨hleads', hevents', -⟩ := leads_of_drainAll hr'
  refine ⟨?_, isPlaced_of_drainAll hr, isPlaced_of_drainAll hr'⟩
  rw [hevents, hevents']
  exact prefix_of_leads hP hs hcourse hleads hleads'

/-- A short script that rests, has an invalid rest, and then plays an opening. -/
def bumpy (runahead : Beat) (limit : Option Nat) : Script Playback.ShowEvent Phase :=
  { start := 8
    runahead
    limit
    queue := .ofList [.cue (.light "dusk" "blue"), .rest 2, .rest (-1), .marker (.log "up"),
      .expand (.opening { loops := some 0 })] }

theorem events_prefix_and_isPlaced_bumpy :
    ∃ r r', (bumpy 2 (some 2)).drainAll 20 [6, 10, 9, 30] = some r ∧
      (bumpy 0 none).drainAll 20 [1, 12, 11] = some r' ∧
      (r.effects.events <+: r'.effects.events ∨ r'.effects.events <+: r.effects.events) ∧
      r.IsPlaced (bumpy 2 (some 2)) ∧ r'.IsPlaced (bumpy 0 none) := by
  have hs : ((bumpy 2 (some 2)).drainAll 20 [6, 10, 9, 30]).isSome := by decide +kernel
  have ht : ((bumpy 0 none).drainAll 20 [1, 12, 11]).isSome := by decide +kernel
  obtain ⟨r, hr⟩ := Option.isSome_iff_exists.1 hs
  obtain ⟨r', hr'⟩ := Option.isSome_iff_exists.1 ht
  have hwithin : (bumpy 2 (some 2)).Within (fun _ => True) (fun _ => True) := by
    intro e _
    cases e <;> trivial
  have hcourse : (bumpy 2 (some 2)).SameCourse (bumpy 0 none) := ⟨rfl, rfl, rfl, rfl⟩
  have hrespects : Subroutine.Respects Context.SamePlace
      (fun _ : Playback.ShowEvent => True) fun _ : Phase => True :=
    Phase.respects _ fun _ => trivial
  exact ⟨r, r', hr, hr', events_prefix_and_isPlaced hrespects hwithin hcourse hr hr'⟩

end Downbeat.Script
