import Downbeat.Proofs.Beat.Grid
import Downbeat.Proofs.Encounter.Finale
import Downbeat.Proofs.Script.Position

/-!
# An encounter does not stall its host

An encounter that goes on for ever puts new work behind all that it does, but it rests in between :
from any place in it there are at most six entries to the next rest (`Phase.Paced`), and each rest
is one to four beats long. So a drain that comes to `k` rests takes at most `6 k + 2` entries, and
there are no more rests than beats that it is behind the host (`Phase.exists_arrives`).

The beats of the host and of the script are taken to be on a grid, where sums are not rounded. That
may fail only for a script that has got so far ahead that it is not ready at any beat on the grid
(`Phase.IsFar`).
-/

set_option linter.unusedSectionVars false

namespace Downbeat

namespace Phase

open Script

variable {κ : Type}

/-! ## Entries up to the next rest -/

/-- The number of entries from a part on up to the next rest. -/
def lead : Phase → ℕ
  | opening _ | loop _ _ => 5
  | outro => 4

/-- The number of entries up to the next rest. A stop counts as if a rest came four entries later,
since a drain that comes to it has two entries at hand and is spared a rest. -/
def ahead : List (Entry (Event κ Phase) Phase) → ℕ
  | [] => 0
  | .rest _ :: _ => 1
  | .expand f :: _ => f.lead
  | .stop :: _ => 5
  | .event _ :: es => ahead es + 1
  | .marker _ :: es => ahead es + 1

/-- A part or a stop comes last, rests are from one to four beats long, and there are never more
than six entries up to the next one. -/
inductive Paced : List (Entry (Event κ Phase) Phase) → Prop
  | stop : Paced [.stop]
  | expand (f : Phase) : Paced [.expand f]
  | rest {es : List (Entry (Event κ Phase) Phase)} (k : ℕ) (hpos : 1 ≤ k) (hle : k ≤ 4)
      (more : Paced es) : Paced (.rest (Float.ofNat k) :: es)
  | event {es : List (Entry (Event κ Phase) Phase)} (x : Event κ Phase) (soon : ahead es ≤ 5)
      (more : Paced es) : Paced (.event x :: es)
  | marker {es : List (Entry (Event κ Phase) Phase)} (m : Marker) (soon : ahead es ≤ 5)
      (more : Paced es) : Paced (.marker m :: es)

theorem Paced.ahead_bounds {es : List (Entry (Event κ Phase) Phase)} (h : Paced es) :
    1 ≤ ahead es ∧ ahead es ≤ 6 := by
  cases h with
  | expand f => cases f <;> simp [ahead, lead]
  | event _ soon _ => exact ⟨Nat.succ_pos _, Nat.succ_le_succ soon⟩
  | marker _ soon _ => exact ⟨Nat.succ_pos _, Nat.succ_le_succ soon⟩
  | _ => simp [ahead]

theorem paced_entries {es : List (Entry (Event κ Phase) Phase)} (h : Paced es) (p : Pattern) :
    Paced (p.entries ++ es) ∧ ahead (p.entries ++ es) ≤ 3 := by
  have hcue : ∀ {es : List (Entry (Event κ Phase) Phase)} (c : Cue), ahead es ≤ 5 → Paced es →
      Paced (.cue c :: es) := fun c => .event _
  have hrest : ∀ {es : List (Entry (Event κ Phase) Phase)} (d : Beat),
      ahead (.rest d :: es) ≤ 5 := fun d => by simp [ahead]
  cases p with
  | sweep =>
    exact ⟨hcue _ (hrest _) (.rest 2 (by decide) (by decide) (hcue _ (hrest _)
      (.rest 2 (by decide) (by decide) h))), by simp [Pattern.entries, Entry.cue, ahead]⟩
  | spiral =>
    exact ⟨hcue _ (by simp [ahead, Entry.cue]) (hcue _ (hrest _) (.rest 4 (by decide) (by decide)
      h)), by simp [Pattern.entries, Entry.cue, ahead]⟩
  | rain =>
    exact ⟨hcue _ (hrest _) (.rest 1 (by decide) (by decide) (hcue _ (hrest _)
      (.rest 1 (by decide) (by decide) (hcue _ (hrest _) (.rest 1 (by decide) (by decide)
        (hcue _ (hrest _) (.rest 1 (by decide) (by decide) h))))))),
      by simp [Pattern.entries, Entry.cue, ahead]⟩
  | pincer =>
    exact ⟨hcue _ (by simp [ahead, Entry.cue]) (hcue _ (hrest _) (.rest 3 (by decide) (by decide)
      (hcue _ (hrest _) (.rest 1 (by decide) (by decide) h)))),
      by simp [Pattern.entries, Entry.cue, ahead]⟩

/-- A part brings on entries that keep pace, and the next rest is no further away than before. -/
theorem paced_expand (f : Phase) (rolls : Rolls) :
    Paced (f.expand rolls : List (Entry (Event κ Phase) Phase) × Rolls).1 ∧
      ahead (f.expand rolls : List (Entry (Event κ Phase) Phase) × Rolls).1 < f.lead := by
  have hloop : ∀ (remaining : Option UInt32) (iteration : UInt32) (p : Pattern),
      Paced (loopEntries remaining iteration p : List (Entry (Event κ Phase) Phase)) ∧
        ahead (loopEntries remaining iteration p : List (Entry (Event κ Phase) Phase)) < 5 := by
    intro remaining iteration p
    obtain ⟨hpaced, hahead⟩ := paced_entries (κ := κ)
      (.expand (loop (remaining.map (· - 1)) (iteration + 1))) p
    exact ⟨.marker _ (hahead.trans (by decide)) hpaced, Nat.succ_lt_succ (Nat.lt_succ_of_le hahead)⟩
  unfold expand
  split
  · rename_i c
    have hlights : Paced (.event (.cue (.light "intro-lights" "red")) ::
        [(loops c.loops).entry] : List (Entry (Event κ Phase) Phase)) :=
      .event _ (Nat.le_refl 5) (.expand (loops c.loops))
    exact ⟨.marker _ (show 3 ≤ 5 by decide) (.event _ (show 2 ≤ 5 by decide)
      (.event _ (show 1 ≤ 5 by decide) (.rest 4 (by decide) (by decide) hlights))),
      show 4 < 5 by decide⟩
  · exact ⟨.expand outro, show 4 < 5 by decide⟩
  · exact hloop _ _ _
  · exact ⟨.event _ (show 2 ≤ 5 by decide) (.event _ (show 1 ≤ 5 by decide)
      (.rest 4 (by decide) (by decide) (.marker _ (Nat.le_refl 5) .stop))), show 3 < 4 by decide⟩

variable [Placed κ]

/-- An entry stops the script, or is a rest, or brings the script nearer to the next one. -/
inductive Paces (p : Pass (Event κ Phase) Phase) : Prop
  | stops (stop : p.entry = .stop) (stopped : p.after.stopped = true)
  | rests (k : ℕ) (hpos : 1 ≤ k) (hle : k ≤ 4) (rest : p.entry = .rest (Float.ofNat k))
      (stopped : p.after.stopped = p.script.stopped) (more : Paced p.after.queue.toList)
  | goes (norest : ∀ d, p.entry ≠ .rest d) (stopped : p.after.stopped = p.script.stopped)
      (more : Paced p.after.queue.toList)
      (nearer : ahead p.after.queue.toList < ahead (p.entry :: p.script.queue.toList))

theorem paces_of_paced {p : Pass (Event κ Phase) Phase}
    (h : Paced (p.entry :: p.script.queue.toList)) : Paces p := by
  obtain ⟨s, now, e⟩ := p
  obtain ⟨es, hes⟩ : ∃ es, s.queue.toList = es := ⟨_, rfl⟩
  simp only [hes] at h
  cases h with
  | stop => exact .stops rfl (Pass.after_of_stop rfl).1
  | expand f =>
    obtain ⟨hstopped, hqueue, -⟩ := Pass.after_of_expand (p := ⟨s, now, .expand f⟩) rfl
    obtain ⟨hpaced, hahead⟩ := paced_expand (κ := κ) f s.rolls
    rw [hes, List.nil_append] at hqueue
    refine .goes nofun hstopped ?_ ?_
    · rw [hqueue]
      exact hpaced
    · rw [hqueue]
      exact hahead
  | rest k hpos hle more =>
    obtain ⟨hstopped, hqueue, -⟩ := Pass.after_of_isPlain (p := ⟨s, now, .rest (Float.ofNat k)⟩)
      trivial
    refine .rests k hpos hle rfl hstopped ?_
    rw [hqueue, hes]
    exact more
  | event x _ more =>
    obtain ⟨hstopped, hqueue, -⟩ := Pass.after_of_isPlain (p := ⟨s, now, .event x⟩) trivial
    refine .goes nofun hstopped ?_ ?_
    · rw [hqueue, hes]
      exact more
    · rw [hqueue, hes]
      exact Nat.lt_succ_self _
  | marker m _ more =>
    obtain ⟨hstopped, hqueue, -⟩ := Pass.after_of_isPlain (p := ⟨s, now, .marker m⟩) trivial
    refine .goes nofun hstopped ?_ ?_
    · rw [hqueue, hes]
      exact more
    · rw [hqueue, hes]
      exact Nat.lt_succ_self _

/-! ## The clocks -/

/-- The scripts agree in their clocks and in where they start. -/
def SameClocks (s t : Script (Event κ Phase) Phase) : Prop :=
  t.start = s.start ∧ t.runahead = s.runahead ∧ t.clocks = s.clocks

/-- The script has rested for `m` beats, up to the end of which it rests; it starts and works ahead
by numbers of steps of the grid. -/
structure IsAt (S A : ℤ) (m : ℕ) (s : Script (Event κ Phase) Phase) : Prop where
  start : s.start.Steps S
  runahead : s.runahead.Steps A
  internal : s.internal = Float.ofNat m
  restUntil : s.restUntil.Steps (S + 2 ^ 10 * m - A)

/-- The script rests beyond all beats of the grid, and its position is even beyond what it may work
ahead by. -/
structure IsFar (S A : ℤ) (s : Script (Event κ Phase) Phase) : Prop where
  start : s.start.Steps S
  runahead : s.runahead.Steps A
  internal : 0 ≤ s.internal
  position : Float.ofNat (2 ^ 41) ≤ s.position
  restUntil : Float.ofNat (2 ^ 40) ≤ s.restUntil

theorem rest?_eq_none {e : Entry (Event κ Phase) Phase} (h : ∀ d, e ≠ .rest d) :
    e.rest? = none := by
  cases e with
  | rest d => exact absurd rfl (h d)
  | _ => rfl

theorem sameClocks_of_no_rest {s left : Script (Event κ Phase) Phase}
    {e : Entry (Event κ Phase) Phase} {now : Beat} (reach : s.reach = some (e, left))
    (h : e.rest? = none) : SameClocks s (Pass.mk left now e).after := by
  obtain ⟨hstart, hrunahead, hclocks⟩ := clocks_of_reach reach
  obtain ⟨hstart', hrunahead'⟩ := (Pass.mk left now e).make_after
  obtain ⟨hinternal, hrest⟩ := Pass.clocks_after_of_rest?_eq_none (p := ⟨left, now, e⟩) h
  exact ⟨hstart'.trans hstart, hrunahead'.trans hrunahead,
    (Prod.ext hinternal hrest).trans hclocks⟩

section

variable {S A C : ℤ} {s t : Script (Event κ Phase) Phase} {m k : ℕ} {now : Beat}

theorem IsAt.congr (h : IsAt S A m s) (hsame : SameClocks s t) : IsAt S A m t := by
  obtain ⟨hstart, hrunahead, hclocks⟩ := hsame
  obtain ⟨hinternal, hrest⟩ := Prod.mk.inj hclocks
  exact ⟨hstart ▸ h.start, hrunahead ▸ h.runahead, hinternal.trans h.internal,
    hrest ▸ h.restUntil⟩

theorem IsFar.congr (h : IsFar S A s) (hsame : SameClocks s t) : IsFar S A t := by
  obtain ⟨hstart, hrunahead, hclocks⟩ := hsame
  obtain ⟨hinternal, hrest⟩ := Prod.mk.inj hclocks
  have hposition : t.position = s.position := by
    rw [Script.position, Script.position, hstart, hinternal]
  exact ⟨hstart ▸ h.start, hrunahead ▸ h.runahead, hinternal ▸ h.internal,
    hposition ▸ h.position, hrest ▸ h.restUntil⟩

theorem IsAt.isReady_iff (h : IsAt S A m s) (hnow : now.Steps C) :
    s.isReady now = true ↔ s.stopped = false ∧ S + 2 ^ 10 * m - A ≤ C := by
  rw [isReady, Bool.and_eq_true, Bool.not_eq_true', decide_eq_true_iff,
    h.restUntil.le_iff hnow]

/-- A script that is far rests beyond all beats of the grid. -/
theorem IsFar.not_restUntil_le (h : IsFar S A s) (hnow : now.Steps C) (hC : |C| < 2 ^ 50) :
    ¬s.restUntil ≤ now := by
  intro hrest
  have hle := Beat.le_trans h.restUntil hrest
  rw [(Beat.steps_ofNat (by norm_num)).le_iff hnow] at hle
  rw [abs_lt] at hC
  push_cast at hle
  omega

variable (hA : |A| < 2 ^ 50)
include hA

theorem IsFar.pass {p : Pass (Event κ Phase) Phase} (h : IsFar S A p.script) :
    IsFar S A p.after := by
  obtain ⟨hstart, hrunahead⟩ := p.make_after
  have hsound : p.script.IsSound := ⟨h.start.isFinite, h.internal⟩
  refine ⟨hstart ▸ h.start, hrunahead ▸ h.runahead, (Pass.isSound_after hsound).internal,
    Beat.le_trans h.position (Pass.position_le_after hsound), ?_⟩
  cases hrest : p.entry.rest? with
  | none =>
    rw [(Pass.clocks_after_of_rest?_eq_none hrest).2]
    exact h.restUntil
  | some d =>
    have hd := zero_le_of_isValidRest (Entry.isValidRest_of_rest? hrest).2
    have hon := Beat.le_trans h.position (hsound.isUpward.le_add hd)
    have hwake := Beat.sub_le_sub_right h.runahead.isFinite hon
    rw [abs_lt] at hA
    have hsteps := (Beat.steps_ofNat (k := 2 ^ 41) (by norm_num)).sub h.runahead
      (by rw [abs_lt]; push_cast; omega)
    rw [Pass.after_of_rest? hrest]
    refine Beat.le_trans ?_ hwake
    rw [(Beat.steps_ofNat (by norm_num)).le_iff hsteps]
    push_cast
    omega

variable (hS : |S| < 2 ^ 50)
include hS

theorem IsAt.position_steps (h : IsAt S A m s) (hm : m ≤ 2 ^ 42 + 8) :
    s.position.Steps (S + 2 ^ 10 * m) := by
  rw [position, h.internal]
  refine h.start.add (Beat.steps_ofNat (by omega)) ?_
  rw [abs_lt] at hS ⊢
  omega

/-- A rest moves both clocks on by its length. -/
theorem IsAt.rest {p : Pass (Event κ Phase) Phase} (h : IsAt S A m p.script)
    (hm : m + k ≤ 2 ^ 42 + 8) (hrest : p.entry = .rest (Float.ofNat k)) :
    IsAt S A (m + k) p.after := by
  have hrest? : p.entry.rest? = some (Float.ofNat k) := by
    rw [hrest, Entry.rest?, if_pos (isValidRest_ofNat (by omega))]
  rw [abs_lt] at hA
  have hposition := h.position_steps (abs_lt.2 hA) hS (by omega)
  rw [abs_lt] at hS
  have hwake := (hposition.add (Beat.steps_ofNat (k := k) (by omega))
    (by rw [abs_lt]; omega)).sub h.runahead (by rw [abs_lt]; omega)
  rw [Pass.after_of_rest? hrest?]
  refine ⟨h.start, h.runahead, ?_, ?_⟩
  · rw [h.internal]
    exact Beat.ofNat_add_ofNat (by omega)
  · have hsteps : S + 2 ^ 10 * ((m + k : ℕ) : ℤ) - A = S + 2 ^ 10 * m + 2 ^ 10 * k - A := by
      push_cast
      ring
    rw [hsteps]
    exact hwake

/-- A script that has rested for long enough is far. -/
theorem IsAt.isFar (h : IsAt S A m s) (hlow : 2 ^ 42 ≤ m) (hm : m ≤ 2 ^ 42 + 8) : IsFar S A s := by
  have hposition := h.position_steps hA hS hm
  rw [abs_lt] at hA hS
  refine ⟨h.start, h.runahead, ?_, ?_, ?_⟩
  · rw [h.internal, Beat.zero_le_iff_value (Beat.steps_ofNat (by omega)).isFinite,
      (Beat.value_ofNat (by omega)).2]
    exact Nat.cast_nonneg m
  · rw [(Beat.steps_ofNat (by norm_num)).le_iff hposition]
    push_cast
    omega
  · rw [(Beat.steps_ofNat (by norm_num)).le_iff h.restUntil]
    push_cast
    omega

end

/-! ## Scripts on their course -/

/-- The clocks of the script are on the grid or beyond it, and unless it is stopped, its entries
keep pace. -/
structure OnCourse (S A : ℤ) (s : Script (Event κ Phase) Phase) : Prop where
  clock : (∃ m < 2 ^ 42, IsAt S A m s) ∨ IsFar S A s
  queue : s.stopped = false → Paced s.queue.toList

section

variable {S A C : ℤ} {s t : Script (Event κ Phase) Phase} {m : ℕ} {now : Beat}
  (hA : |A| < 2 ^ 50) (hS : |S| < 2 ^ 50)
include hA hS

theorem OnCourse.pass {left : Script (Event κ Phase) Phase} {e : Entry (Event κ Phase) Phase}
    (h : OnCourse S A s) (going : s.stopped = false) (reach : s.reach = some (e, left)) :
    OnCourse S A (Pass.mk left now e).after := by
  have hleft : SameClocks s left := clocks_of_reach reach
  have hpaces : Paces (Pass.mk left now e) := by
    have hqueue := h.queue going
    rw [toList_of_reach reach] at hqueue
    exact paces_of_paced hqueue
  constructor
  · rcases h.clock with ⟨m, hm, hat⟩ | hfar
    · cases hpaces with
      | rests k _ hle hrest =>
        have hnext := (hat.congr hleft).rest (p := ⟨left, now, e⟩) hA hS (by omega) hrest
        by_cases hlow : m + k < 2 ^ 42
        · exact .inl ⟨m + k, hlow, hnext⟩
        · exact .inr (hnext.isFar hA hS (by omega) (by omega))
      | stops hstop =>
        refine .inl ⟨m, hm, hat.congr (sameClocks_of_no_rest reach ?_)⟩
        obtain rfl : e = .stop := hstop
        rfl
      | goes hnone =>
        exact .inl ⟨m, hm, hat.congr (sameClocks_of_no_rest reach (rest?_eq_none hnone))⟩
    · exact .inr ((hfar.congr hleft).pass (p := ⟨left, now, e⟩) hA)
  · intro hgoing
    cases hpaces with
    | stops _ hstopped => exact absurd (hgoing.symm.trans hstopped) Bool.false_ne_true
    | rests _ _ _ _ _ more => exact more
    | goes _ _ more => exact more

theorem OnCourse.of_leads {ps : List (Pass (Event κ Phase) Phase)} (h : OnCourse S A s)
    (hleads : Leads s ps t) : OnCourse S A t := by
  induction hleads with
  | refl => exact h
  | putBack => exact ⟨h.clock.imp (fun ⟨m, hm, hat⟩ => ⟨m, hm, hat.congr ⟨rfl, rfl, rfl⟩⟩)
      fun hfar => hfar.congr ⟨rfl, rfl, rfl⟩, h.queue⟩
  | pass going reach _ ih => exact ih (h.pass hA hS going reach)

end

/-! ## One drain -/

/-- The number of rests among the entries of the passes. -/
def rests (ps : List (Pass (Event κ Phase) Phase)) : ℕ := (Report.tally (ps.map Pass.entry)).rests

theorem rests_cons (p : Pass (Event κ Phase) Phase) (ps : List (Pass (Event κ Phase) Phase)) :
    rests (p :: ps) = (Report.ofEntry p.entry).rests + rests ps := by
  rw [rests, List.map_cons, Report.tally_cons]
  rfl

/-- A script that has `near` entries to the next rest, and is `behind` steps of the grid behind the
host, goes along the passes to where it is not ready. It comes to a rest every six entries, and to a
rest for every beat that it is behind. -/
structure Arrives (now : Beat) (s : Script (Event κ Phase) Phase) (near : ℕ) (behind : ℤ)
    (ps : List (Pass (Event κ Phase) Phase)) (t : Script (Event κ Phase) Phase) : Prop where
  walk : Walks now s ps t
  faults : ∀ p ∈ ps, p.entry.fault? = none
  idle : t.isReady now = false
  length : ps.length + 4 ≤ near + 6 * rests ps
  rests : 2 ^ 10 * (rests ps : ℤ) ≤ behind + 2 ^ 10

namespace Arrives

variable {s left t : Script (Event κ Phase) Phase} {ps : List (Pass (Event κ Phase) Phase)}
  {now : Beat} {near near' k : ℕ} {behind behind' : ℤ} (ready : s.isReady now = true)
include ready

/-- A stop ends the walk. -/
theorem of_stop (reach : s.reach = some (.stop, left)) (hbehind : 0 ≤ behind) :
    Arrives now s 5 behind [⟨left, now, .stop⟩] (Pass.mk left now .stop).after := by
  have hstopped : (Pass.mk left now .stop).after.stopped = true := (Pass.after_of_stop rfl).1
  have hnone : Phase.rests [(⟨left, now, .stop⟩ : Pass (Event κ Phase) Phase)] = 0 := rfl
  refine ⟨.pass ready reach (.refl _), List.forall_mem_singleton.2 rfl, ?_, ?_, ?_⟩
  · rw [isReady, hstopped]
    rfl
  · exact Nat.le_add_right 5 _
  · rw [hnone]
    omega

/-- A rest ends the walk if it goes beyond the host. -/
theorem of_rest (hk : k ≤ 4) (reach : s.reach = some (.rest (Float.ofNat k), left))
    (hidle : (Pass.mk left now (.rest (Float.ofNat k))).after.isReady now = false)
    (hbehind : 0 ≤ behind) : Arrives now s 1 behind [⟨left, now, .rest (Float.ofNat k)⟩]
      (Pass.mk left now (.rest (Float.ofNat k))).after := by
  have hone : Phase.rests [(⟨left, now, .rest (Float.ofNat k)⟩ : Pass (Event κ Phase) Phase)] = 1 :=
    rfl
  refine ⟨.pass ready reach (.refl _),
    List.forall_mem_singleton.2 (if_pos (isValidRest_ofNat (by omega))), hidle, ?_, ?_⟩
  · rw [hone, List.length_singleton]
    exact Nat.le_add_right 5 2
  · rw [hone]
    omega

/-- A rest of a beat or more takes the script nearer to the host. -/
theorem rest (h : Arrives now (Pass.mk left now (.rest (Float.ofNat k))).after near' behind' ps t)
    (hk : k ≤ 4) (reach : s.reach = some (.rest (Float.ofNat k), left)) (hnear : near' ≤ 6)
    (hbehind : behind' + 2 ^ 10 ≤ behind) :
    Arrives now s 1 behind (⟨left, now, .rest (Float.ofNat k)⟩ :: ps) t := by
  obtain ⟨hwalk, hfaults, hidle, hlength, hrests⟩ := h
  have hcons : Phase.rests ((⟨left, now, .rest (Float.ofNat k)⟩ : Pass (Event κ Phase) Phase) ::
      ps) = 1 + Phase.rests ps := rests_cons _ _
  refine ⟨.pass ready reach hwalk, List.forall_mem_cons.2
    ⟨if_pos (isValidRest_ofNat (by omega)), hfaults⟩, hidle, ?_, ?_⟩
  · rw [hcons, List.length_cons]
    omega
  · rw [hcons]
    push_cast
    omega

/-- Any other entry takes the script nearer to the next rest. -/
theorem goes {e : Entry (Event κ Phase) Phase}
    (h : Arrives now (Pass.mk left now e).after near' behind ps t)
    (reach : s.reach = some (e, left)) (hnorest : ∀ d, e ≠ .rest d) (hnear : near' < near) :
    Arrives now s near behind (⟨left, now, e⟩ :: ps) t := by
  obtain ⟨hwalk, hfaults, hidle, hlength, hrests⟩ := h
  obtain ⟨hfault, hnone⟩ : e.fault? = none ∧ (Report.ofEntry e).rests = 0 := by
    cases e with
    | rest d => exact absurd rfl (hnorest d)
    | _ => exact ⟨rfl, rfl⟩
  have hcons : Phase.rests (⟨left, now, e⟩ :: ps) = Phase.rests ps := by
    rw [rests_cons, hnone, Nat.zero_add]
  refine ⟨.pass ready reach hwalk, List.forall_mem_cons.2 ⟨hfault, hfaults⟩, hidle, ?_, ?_⟩
  · rw [hcons, List.length_cons]
    omega
  · rw [hcons]
    exact hrests

end Arrives

section

variable {S A C : ℤ} {s t : Script (Event κ Phase) Phase} {m : ℕ} {now : Beat}
  (hA : |A| < 2 ^ 50) (hS : |S| < 2 ^ 50) (hC : |C| < 2 ^ 50) (hnow : now.Steps C)
include hA hS hC hnow

/-- A script that is ready goes on to where it is not. Every entry brings it nearer to the next
rest, and every rest to the host by a beat or more, so what is left of both, weighed against each
other, bounds the number `N` of its entries. -/
theorem exists_arrives {N : ℕ} (hat : IsAt S A m s) (hready : s.isReady now = true)
    (hpaced : Paced s.queue.toList)
    (hN : 6 * (C - (S + 2 ^ 10 * m - A)) + 2 ^ 10 * ahead s.queue.toList ≤ 2 ^ 10 * N) :
    ∃ ps t, Arrives now s (ahead s.queue.toList) (C - (S + 2 ^ 10 * m - A)) ps t := by
  have hdue := ((hat.isReady_iff hnow).1 hready).2
  induction N generalizing s m with
  | zero =>
    have hahead := hpaced.ahead_bounds.1
    omega
  | succ N ih =>
    obtain ⟨e, left, reach⟩ : ∃ e left, s.reach = some (e, left) := by
      cases hreach : s.reach with
      | none =>
        have hnone : s.queue.next? = none := by simpa [reach] using hreach
        rw [Queue.next?_eq_none_iff.1 hnone] at hpaced
        cases hpaced
      | some x => exact ⟨x.1, x.2, rfl⟩
    have hleft : SameClocks s left := clocks_of_reach reach
    rw [toList_of_reach reach] at hpaced hN ⊢
    cases paces_of_paced (p := ⟨left, now, e⟩) hpaced with
    | stops hstop =>
      obtain rfl : e = .stop := hstop
      exact ⟨_, _, .of_stop hready reach (by omega)⟩
    | rests k hpos hle hrest _ more =>
      obtain rfl : e = .rest (Float.ofNat k) := hrest
      have hm : m + k ≤ 2 ^ 42 + 8 := by
        rw [abs_lt] at hA hS hC
        omega
      have hnext := (hat.congr hleft).rest (p := ⟨left, now, _⟩) hA hS hm rfl
      have hahead : ahead (.rest (Float.ofNat k) :: left.queue.toList) = 1 := rfl
      rw [hahead] at hN ⊢
      cases hgo : (Pass.mk left now (.rest (Float.ofNat k))).after.isReady now with
      | false => exact ⟨_, _, .of_rest hready hle reach hgo (by omega)⟩
      | true =>
        have hdue' := ((hnext.isReady_iff hnow).1 hgo).2
        have hsoon := more.ahead_bounds.2
        obtain ⟨ps, t, harrives⟩ := ih hnext hgo more (by push_cast at hN ⊢; omega) hdue'
        exact ⟨_, t, harrives.rest hready hle reach hsoon (by push_cast; omega)⟩
    | goes hnorest hstopped more hnearer =>
      have hsame : SameClocks s (Pass.mk left now e).after :=
        sameClocks_of_no_rest reach (rest?_eq_none hnorest)
      have hnext := hat.congr hsame
      have hgoing : left.stopped = false := by
        obtain ⟨queue, -, rfl⟩ := reach_eq_some_iff.1 reach
        exact stopped_of_isReady hready
      have hgo := (hnext.isReady_iff hnow).2 ⟨hstopped.trans hgoing, hdue⟩
      have hless : ahead (Pass.mk left now e).after.queue.toList < ahead (e :: left.queue.toList) :=
        hnearer
      obtain ⟨ps, t, harrives⟩ := ih hnext hgo more (by push_cast at hN; omega) hdue
      exact ⟨_, t, harrives.goes hready reach hnorest hless⟩

/-- A drain of a script on its course has a walk to go along. -/
theorem OnCourse.exists_walk (h : OnCourse S A s) :
    ∃ ps t, Walks now s ps t ∧ (∀ p ∈ ps, p.entry.fault? = none) ∧ t.isReady now = false ∧
      ps.length ≤ 6 * rests ps + 2 ∧
      (s.restUntil ≤ now → (rests ps : ℤ) ≤ ⌊now.value - s.restUntil.value⌋ + 1) := by
  rcases h.clock with ⟨m, -, hat⟩ | hfar
  · by_cases hready : s.isReady now = true
    · have hpaced := h.queue (stopped_of_isReady hready)
      obtain ⟨N, hN⟩ : ∃ N : ℕ, 6 * (C - (S + 2 ^ 10 * m - A)) + 2 ^ 10 * ahead s.queue.toList ≤
          2 ^ 10 * (N : ℤ) :=
        ⟨(6 * (C - (S + 2 ^ 10 * m - A)) + 2 ^ 10 * ahead s.queue.toList).toNat, by omega⟩
      obtain ⟨ps, t, hwalk, hfaults, hidle, hlength, hbound⟩ :=
        exists_arrives hA hS hC hnow hat hready hpaced hN
      refine ⟨ps, t, hwalk, hfaults, hidle, ?_, fun _ => ?_⟩
      · have hahead := hpaced.ahead_bounds.2
        omega
      · have hfloor := hat.restUntil.le_floor_sub hnow (k := rests ps - 1) (by omega)
        omega
    · refine ⟨[], s, .refl s, nofun, eq_false_of_ne_true hready, Nat.zero_le _, fun hle => ?_⟩
      rw [hat.restUntil.le_iff hnow] at hle
      have hfloor := hat.restUntil.le_floor_sub hnow (k := -1) (by omega)
      have hnone : rests ([] : List (Pass (Event κ Phase) Phase)) = 0 := rfl
      rw [hnone]
      omega
  · have hrest := hfar.not_restUntil_le hnow hC
    refine ⟨[], s, .refl s, nofun, ?_, Nat.zero_le _, fun hle => absurd hle hrest⟩
    rw [isReady, decide_eq_false hrest, Bool.and_false]

end

/-! ## Any drains -/

/-- A drain of the script at the beat `now` is done. It takes at most six entries for each rest that
it comes to and two more, and comes to no more rests than one, and one for every whole beat that the
script is behind. -/
def KeepsPace (s : Script (Event κ Phase) Phase) (now : Beat) : Prop :=
  ∃ ps : List (Pass (Event κ Phase) Phase),
    (∀ fuel, ps.length < fuel → ∃ d, s.drain fuel now = some d ∧ s.passes now fuel 0 = ps ∧
      d.outcome = .ok (.tally (ps.map Pass.entry))) ∧
    ps.length ≤ 6 * rests ps + 2 ∧
    (s.restUntil ≤ now → (rests ps : ℤ) ≤ ⌊now.value - s.restUntil.value⌋ + 1)

section

variable {S A : ℤ} {s t : Script (Event κ Phase) Phase} {now later : Beat}

theorem restUntil_le_of_isReady (h : s.isReady now = true) : s.restUntil ≤ now := by
  rw [isReady, Bool.and_eq_true, decide_eq_true_iff] at h
  exact h.2

theorem exists_drainFrom_of_walk {ps : List (Pass (Event κ Phase) Phase)} {fuel : ℕ}
    (hwalk : Walks now s ps t) (hfaults : ∀ p ∈ ps, p.entry.fault? = none)
    (hidle : t.isReady now = false) (hroom : ∀ n < ps.length, s.isAtLimit n = false)
    (hfuel : ps.length < fuel) :
    ∃ d, drainFrom now fuel 0 s = some d ∧ s.passes now fuel 0 = ps ∧ d.script = t ∧
      d.outcome = .ok (.tally (ps.map Pass.entry)) := by
  obtain ⟨hdrain, hpasses⟩ := hwalk.drainFrom_of_idle hfaults hroom hfuel (.inl hidle)
  refine ⟨_, hdrain, hpasses, Drained.script_afterAll ps _, ?_⟩
  rw [Drained.outcome_afterAll]
  exact congrArg Except.ok (add_zero _)

/-- A script that is ready at one beat and not at another rests beyond the other one. -/
theorem OnCourse.lt_restUntil (h : OnCourse S A s) (hnow : now.OnGrid) (hlater : later.OnGrid)
    (hidle : s.isReady now = false) (hready : s.isReady later = true) :
    now.value < s.restUntil.value := by
  obtain ⟨C, hC, hnow⟩ := hnow
  obtain ⟨L, hL, hlater⟩ := hlater
  rcases h.clock with ⟨m, -, hat⟩ | hfar
  · have hgoing := stopped_of_isReady hready
    have hlt : C < S + 2 ^ 10 * m - A := by
      by_contra hle
      have hgo := (hat.isReady_iff hnow).2 ⟨hgoing, not_lt.1 hle⟩
      exact Bool.false_ne_true (hidle.symm.trans hgo)
    rw [hnow.value_eq, hat.restUntil.value_eq]
    exact div_lt_div_of_pos_right (by exact_mod_cast hlt) (by positivity)
  · exact absurd (restUntil_le_of_isReady hready) (hfar.not_restUntil_le hlater hL)

variable (hA : |A| < 2 ^ 50) (hS : |S| < 2 ^ 50)
include hA hS

theorem OnCourse.keepsPace (h : OnCourse S A s) (hlimit : s.limit = none) (hnow : now.OnGrid) :
    KeepsPace s now := by
  obtain ⟨C, hC, hnow⟩ := hnow
  obtain ⟨ps, t, hwalk, hfaults, hidle, hlength, hrests⟩ := h.exists_walk hA hS hC hnow
  refine ⟨ps, fun fuel hfuel => ?_, hlength, hrests⟩
  obtain ⟨d, hd, hpasses, -, hok⟩ := exists_drainFrom_of_walk hwalk hfaults hidle
    (fun n _ => isAtLimit_of_limit hlimit n) hfuel
  exact ⟨_, Option.map_eq_some_iff.2 ⟨d, hd, rfl⟩, hpasses, hok⟩

/-- A script that is never a beat behind takes at most eight entries in a drain, and so stays within
a limit of eight. -/
theorem OnCourse.exists_drainAll (h : OnCourse S A s) {nows : List Beat} {fuel : ℕ}
    (hlimit : ∀ l, s.limit = some l → 8 ≤ l) (hgrid : ∀ now ∈ nows, now.OnGrid)
    (hnear : ∀ now ∈ nows.head?, s.isReady now = true → now.value < s.restUntil.value + 1)
    (hsteps : nows.IsChain fun b c => c.value ≤ b.value + 1) (hfuel : 9 ≤ fuel) :
    ∃ r, ∃ reports : List Report, s.drainAll fuel nows = some r ∧
      r.outcomes = reports.map .ok := by
  induction nows generalizing s with
  | nil => exact ⟨_, [], rfl, rfl⟩
  | cons now nows ih =>
    obtain ⟨hnow, hnows⟩ := List.forall_mem_cons.1 hgrid
    obtain ⟨C, hC, hsteps'⟩ := id hnow
    obtain ⟨ps, t, hwalk, hfaults, hidle, hlength, hrests⟩ := h.exists_walk hA hS hC hsteps'
    have hfew : ps.length ≤ 8 := by
      cases hready : s.isReady now with
      | false =>
        cases hwalk with
        | refl => exact Nat.zero_le 8
        | pass ready => exact absurd (hready.symm.trans ready) Bool.false_ne_true
      | true =>
        have hlt := hnear now rfl hready
        have hfloor : ⌊now.value - s.restUntil.value⌋ < 1 := by
          rw [Int.floor_lt, Int.cast_one]
          linarith
        have hone := hrests (restUntil_le_of_isReady hready)
        omega
    have hroom : ∀ n < ps.length, s.isAtLimit n = false := by
      intro n hn
      cases hl : s.limit with
      | none => exact isAtLimit_of_limit hl n
      | some l =>
        have hle := hlimit l hl
        rw [isAtLimit, hl, Option.any_some, decide_eq_false_iff_not]
        omega
    obtain ⟨d, hd, -, rfl, hok⟩ :=
      exists_drainFrom_of_walk hwalk hfaults hidle hroom (by omega : ps.length < fuel)
    have ht := h.of_leads hA hS (leads_of_drainFrom hd).1
    have hnext : ∀ later ∈ nows.head?, d.script.isReady later = true →
        later.value < d.script.restUntil.value + 1 := by
      intro later hlater hready
      obtain ⟨rest, rfl⟩ := List.head?_eq_some_iff.1 hlater
      have hbeyond := ht.lt_restUntil hnow (hnows later List.mem_cons_self) hidle hready
      have hstep := (List.isChain_cons_cons.1 hsteps).1
      linarith
    obtain ⟨r, reports, hr, hreports⟩ := ih ht (hwalk.limit ▸ hlimit) hnows hnext hsteps.tail
    refine ⟨_, .tally (ps.map Pass.entry) :: reports, drainAll_of_drainFrom hd rfl hr, ?_⟩
    rw [List.map_cons, ← hok, ← hreports]

end

theorem onCourse_staged {S A : ℤ} (hS : |S| < 2 ^ 50) (hA : |A| < 2 ^ 50) {label : String}
    {start runahead : Beat} (hstart : start.Steps S) (hrunahead : runahead.Steps A) {seed : UInt64}
    {limit : Option ℕ} {c : EncounterSettings} :
    OnCourse S A (staged label start runahead seed limit c : Script (Event κ Phase) Phase) := by
  refine ⟨.inl ⟨0, by norm_num, hstart, hrunahead, rfl, ?_⟩, fun _ => .expand (opening c)⟩
  rw [abs_lt] at hS hA
  have hrest := hstart.sub hrunahead (by rw [abs_lt]; omega)
  rw [Nat.cast_zero, mul_zero, add_zero]
  exact hrest

/-- On the grid, a script of an encounter keeps pace at any beat and after any drains, with a count
of loops or without. So with a limit of eight entries or more it never meets its limit, if it is
drained before it is a beat behind, and then at steps of a beat at most. -/
theorem keepsPace_of_drainAll {label : String} {start runahead : Beat} (hstart : start.OnGrid)
    (hrunahead : runahead.OnGrid) {seed : UInt64} {c : EncounterSettings} :
    (∀ fuel nows r, (staged label start runahead seed none c :
        Script (Event κ Phase) Phase).drainAll fuel nows = some r →
      ∀ now : Beat, now.OnGrid → KeepsPace r.script now) ∧
    ∀ limit nows fuel, 8 ≤ limit → 9 ≤ fuel → (∀ now ∈ nows, Beat.OnGrid now) →
      (∀ now ∈ nows.head?, now.value < start.value - runahead.value + 1) →
      (nows.IsChain fun b c => c.value ≤ b.value + 1) →
      ∃ r, ∃ reports : List Report, (staged label start runahead seed (some limit) c :
          Script (Event κ Phase) Phase).drainAll fuel nows = some r ∧
        r.outcomes = reports.map .ok := by
  obtain ⟨S, hS, hstart⟩ := hstart
  obtain ⟨A, hA, hrunahead⟩ := hrunahead
  constructor
  · intro fuel nows r hr now hnow
    obtain ⟨hleads, -, -⟩ := leads_of_drainAll hr
    have hcourse := (onCourse_staged hS hA hstart hrunahead).of_leads hA hS hleads
    exact hcourse.keepsPace hA hS hleads.limit hnow
  · intro limit nows fuel hlimit hfuel hgrid hfirst hsteps
    refine (onCourse_staged hS hA hstart hrunahead).exists_drainAll hA hS ?_ hgrid ?_ hsteps hfuel
    · rintro l hl
      cases hl
      exact hlimit
    · intro now hnow _
      have hrest : (start - runahead).value = start.value - runahead.value := by
        rw [abs_lt] at hS hA
        rw [(hstart.sub hrunahead (by rw [abs_lt]; omega)).value_eq, hstart.value_eq,
          hrunahead.value_eq]
        push_cast
        ring
      show now.value < (start - runahead).value + 1
      rw [hrest]
      exact hfirst now hnow

/-- An encounter without an end, after drains at whatever beats, and within the least limit. -/
theorem keepsPace_of_drainAll_endless :
    (∃ r, (staged "warden" 8 2.5 7 none { loops := none } :
        Script (Event Empty Phase) Phase).drainAll 20 [0.1, 9, 13] = some r ∧
      r.passes.length = 12 ∧ KeepsPace r.script 1000) ∧
    ∃ r, ∃ reports : List Report, (staged "warden" 8 2.5 7 (some 8) { loops := none } :
        Script (Event Empty Phase) Phase).drainAll 9 [6.25, 7.25, 7.5, 8.5] = some r ∧
      r.outcomes = reports.map .ok := by
  have hrun : ((staged "warden" 8 2.5 7 none { loops := none } :
      Script (Event Empty Phase) Phase).drainAll 20 [0.1, 9, 13]).map (·.passes.length) =
        some 12 := by
    decide +kernel
  obtain ⟨r, hr, hlength⟩ := Option.map_eq_some_iff.1 hrun
  have hstart : Beat.OnGrid 8 := ⟨8192, by norm_num, by decide, by decide +kernel⟩
  have hrunahead : Beat.OnGrid 2.5 := ⟨2560, by norm_num, by decide, by decide +kernel⟩
  have hhost : Beat.OnGrid 1000 := ⟨1024000, by norm_num, by decide, by decide +kernel⟩
  have hgrid : ∀ now ∈ [6.25, 7.25, 7.5, 8.5], Beat.OnGrid now := by
    simp only [List.forall_mem_cons, List.not_mem_nil, false_imp_iff, implies_true, and_true]
    exact ⟨⟨6400, by norm_num, by decide, by decide +kernel⟩,
      ⟨7424, by norm_num, by decide, by decide +kernel⟩,
      ⟨7680, by norm_num, by decide, by decide +kernel⟩,
      ⟨8704, by norm_num, by decide, by decide +kernel⟩⟩
  obtain ⟨hpace, hwithin⟩ :=
    @keepsPace_of_drainAll Empty _ "warden" 8 2.5 hstart hrunahead 7 { loops := none }
  exact ⟨⟨r, hr, hlength, hpace 20 _ r hr 1000 hhost⟩, hwithin 8 _ 9 (Nat.le_refl 8)
    (Nat.le_refl 9) hgrid (by decide +kernel) (by decide +kernel)⟩

end Phase

end Downbeat
