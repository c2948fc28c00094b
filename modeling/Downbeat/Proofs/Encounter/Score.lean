import Downbeat.Event
import Downbeat.Proofs.Encounter.Blind
import Downbeat.Proofs.Script.Course

/-!
# The score of an encounter

An encounter with a count of loops leads a script that is alone with it through one course of
entries (`Phase.fullCourse`) : the overture, each loop with the pattern of the next roll, and the
outro (`Phase.entries_of_opening`). Each pattern lasts four beats, so the events of the course
stand at whole beats after the start (`Phase.timetable`, `Phase.timed_fullCourse`), and the script
hands them over there and nowhere else (`Phase.played_of_drainAll`).
-/

set_option linter.unusedSectionVars false

namespace Downbeat

/-- The roll that comes after `k` others. -/
def Rolls.nth (r : Rolls) (k : Nat) : Float := value r.key (r.drawn + k)

namespace Pattern

/-- The body of a pattern lasts four beats. -/
theorem wholeRests_entries {ε φ : Type} [Embeds Cue ε] (p : Pattern) :
    WholeRests (p.entries : List (Entry ε φ)) 4 := by
  have hcue : ∀ (c : Cue) (d : Beat), (Entry.cue c : Entry ε φ) ≠ .rest d := nofun
  cases p with
  | sweep => exact .other (hcue _) (.rest 2 (.other (hcue _) (.rest 2 .nil)))
  | spiral => exact .other (hcue _) (.other (hcue _) (.rest 4 .nil))
  | rain =>
    exact .other (hcue _) (.rest 1 (.other (hcue _) (.rest 1 (.other (hcue _) (.rest 1
      (.other (hcue _) (.rest 1 .nil)))))))
  | pincer =>
    exact .other (hcue _) (.other (hcue _) (.rest 3 (.other (hcue _) (.rest 1 .nil))))

end Pattern

namespace Phase

open Script

variable {κ : Type}

/-! ## The entries of an encounter -/

/-- What a loop plays before the next one. -/
def attack (iteration : UInt32) (p : Pattern) : List (Entry (Event κ Phase) Phase) :=
  .marker (.note ("loop " ++ Nat.repr iteration.toNat ++ " plays " ++ p.name)) :: p.entries

/-- The entries that a script gets to in the last loops and the outro. -/
def course : Nat → UInt32 → Rolls → List (Entry (Event κ Phase) Phase)
  | 0, iteration, _ => (loop (some 0) iteration).entry :: outro.entry :: outroEntries
  | n + 1, iteration, rolls =>
    (loop (some (UInt32.ofNat (n + 1))) iteration).entry ::
      (attack iteration (Pattern.pick rolls.draw.1) ++ course n (iteration + 1) rolls.draw.2)

theorem isPlain_attack (iteration : UInt32) (p : Pattern) :
    ∀ e ∈ (attack iteration p : List (Entry (Event κ Phase) Phase)), e.IsPlain := by
  cases p <;> simp [attack, Pattern.entries, Entry.IsPlain, Entry.cue]

theorem expand_loop_succ {n : Nat} (hn : n + 1 < 2 ^ 32) (iteration : UInt32) (rolls : Rolls) :
    ((loop (some (UInt32.ofNat (n + 1))) iteration).expand rolls :
        List (Entry (Event κ Phase) Phase) × Rolls) =
      (attack iteration (Pattern.pick rolls.draw.1) ++
        [(loop (some (UInt32.ofNat n)) (iteration + 1)).entry], rolls.draw.2) := by
  have hne : UInt32.ofNat (n + 1) ≠ 0 := by
    intro h
    have := congrArg UInt32.toNat h
    rw [UInt32.toNat_ofNat_of_lt' hn] at this
    cases this
  have hpred : UInt32.ofNat (n + 1) - 1 = UInt32.ofNat n := by
    rw [UInt32.ofNat_add]
    exact UInt32.add_sub_cancel _ 1
  have hexpand : ((loop (some (UInt32.ofNat (n + 1))) iteration).expand rolls :
      List (Entry (Event κ Phase) Phase) × Rolls) =
        (loopEntries (some (UInt32.ofNat (n + 1))) iteration (Pattern.pick rolls.draw.1),
          rolls.draw.2) := by
    rw [expand]
    rintro h
    exact hne (Option.some.inj h)
  rw [hexpand]
  simp only [loopEntries, Option.map_some, hpred]
  rfl

variable [Placed κ] {s t : Script (Event κ Phase) Phase} {ps : List (Pass (Event κ Phase) Phase)}

/-- A part that is alone in the queue is replaced by its entries. -/
theorem uncons_of_entry {f : Phase} (h : Leads s ps t) (hstop : t.stopped = true)
    (hgoing : s.stopped = false) (hqueue : s.queue.toList = [f.entry]) :
    ∃ p later, ps = p :: later ∧ Leads p.after later t ∧ p.entry = f.entry ∧
      p.after.stopped = false ∧ p.after.queue.toList = (f.expand s.rolls).1 ∧
      p.after.rolls = (f.expand s.rolls : List (Entry (Event κ Phase) Phase) × Rolls).2 := by
  obtain ⟨p, later, rfl, hlater, hp, hempty, hstopped, hrolls⟩ := h.uncons hstop hgoing hqueue
  obtain ⟨hstopped', hqueue', hrolls'⟩ := Pass.after_of_expand hp
  refine ⟨p, later, rfl, hlater, hp, hstopped'.trans hstopped, ?_, ?_⟩
  · rw [hqueue', hempty, hrolls]
    rfl
  · rw [hrolls', hrolls]
    rfl

theorem entries_of_outro (h : Leads s ps t) (hstop : t.stopped = true)
    (hgoing : s.stopped = false) (hqueue : s.queue.toList = [outro.entry]) :
    ps.map Pass.entry = outro.entry :: outroEntries ∧ t.queue.toList = [] ∧ t.rolls = s.rolls := by
  obtain ⟨p, ps, rfl, hps, hp, hgoing₁, hqueue₁, hrolls₁⟩ :=
    uncons_of_entry h hstop hgoing hqueue
  have hsplit : p.after.queue.toList = outroEntries.take 4 ++ [.stop] := hqueue₁
  obtain ⟨u, played, later, rfl, hplayed, hlater, hgoing₂, hqueue₂, hrolls₂⟩ :=
    hps.split_plain hstop hgoing₁ hsplit (by simp [outroEntries, Entry.IsPlain, Entry.cue])
  obtain ⟨q, last, rfl, hlast, hq, hempty, -, hrolls₃⟩ := hlater.uncons hstop hgoing₂ hqueue₂
  obtain ⟨hstopped, hqueue₄, hrolls₄⟩ := Pass.after_of_stop hq
  obtain ⟨rfl, -, hqueue₅, hrolls₅⟩ := hlast.of_stopped hstopped
  refine ⟨?_, ?_, ?_⟩
  · simp only [List.map_cons, List.map_append, List.map_nil, hplayed, hp, hq]
    rfl
  · rw [hqueue₅, hqueue₄, hempty]
  · rw [hrolls₅, hrolls₄, hrolls₃, hrolls₂, hrolls₁]
    rfl

theorem entries_of_loops {n : Nat} {iteration : UInt32} (hn : n < 2 ^ 32) (h : Leads s ps t)
    (hstop : t.stopped = true) (hgoing : s.stopped = false)
    (hqueue : s.queue.toList = [(loop (some (UInt32.ofNat n)) iteration).entry]) :
    ps.map Pass.entry = course n iteration s.rolls ∧ t.queue.toList = [] ∧
      t.rolls = { s.rolls with drawn := s.rolls.drawn + n } := by
  induction n generalizing iteration s ps with
  | zero =>
    obtain ⟨p, ps, rfl, hps, hp, hgoing₁, hqueue₁, hrolls₁⟩ :=
      uncons_of_entry h hstop hgoing hqueue
    obtain ⟨hentries, hempty, hrolls⟩ := entries_of_outro hps hstop hgoing₁ hqueue₁
    refine ⟨?_, hempty, hrolls.trans hrolls₁⟩
    rw [List.map_cons, hentries, hp]
    rfl
  | succ n ih =>
    obtain ⟨p, ps, rfl, hps, hp, hgoing₁, hqueue₁, hrolls₁⟩ :=
      uncons_of_entry h hstop hgoing hqueue
    rw [expand_loop_succ hn] at hqueue₁ hrolls₁
    obtain ⟨u, played, later, rfl, hplayed, hlater, hgoing₂, hqueue₂, hrolls₂⟩ :=
      hps.split_plain hstop hgoing₁ hqueue₁ (isPlain_attack _ _)
    obtain ⟨hentries, hempty, hrolls⟩ := ih (by omega) hlater hgoing₂ hqueue₂
    rw [hrolls₂, hrolls₁] at hentries hrolls
    refine ⟨?_, hempty, ?_⟩
    · rw [List.map_cons, List.map_append, hplayed, hentries, hp]
      rfl
    · rw [hrolls, Rolls.drawn_draw, Nat.add_assoc, Nat.add_comm 1 n]
      rfl

/-! ## The beats of the course -/

theorem wholeRests_attack (iteration : UInt32) (p : Pattern) :
    WholeRests (attack iteration p : List (Entry (Event κ Phase) Phase)) 4 :=
  .other (fun _ h => nomatch h) p.wholeRests_entries

theorem wholeRests_outroEntries :
    WholeRests (outroEntries : List (Entry (Event κ Phase) Phase)) 4 := by
  refine .other (fun _ h => ?_) (.other (fun _ h => ?_) (.rest 4 (.other (fun _ h => ?_)
    (.other (fun _ h => ?_) .nil)))) <;> cases h

theorem wholeRests_course (n : Nat) (iteration : UInt32) (rolls : Rolls) :
    WholeRests (course n iteration rolls : List (Entry (Event κ Phase) Phase)) (4 * n + 4) := by
  induction n generalizing iteration rolls with
  | zero =>
    refine .other (fun _ h => ?_) (.other (fun _ h => ?_) wholeRests_outroEntries) <;> cases h
  | succ n ih =>
    have hnext := (wholeRests_attack iteration (Pattern.pick rolls.draw.1)).append
      (ih (iteration + 1) rolls.draw.2)
    rw [show 4 * (n + 1) + 4 = 4 + (4 * n + 4) by omega]
    refine .other (fun _ h => ?_) hnext
    cases h

/-- The events of a pattern, each with the beats that are rested before it in the pattern. -/
def body (p : Pattern) : List (Beat × Event κ Phase) :=
  timed 0 (p.compose ({} : Sequence (Event κ Phase) Phase)).entries

/-- The events of `n` loops, each with the beats that are rested before it, of which there are
`a` before the loops. -/
def loopTimes (a n : Nat) (rolls : Rolls) : List (Beat × Event κ Phase) :=
  (List.range n).flatMap fun k =>
    (body (Pattern.pick (rolls.nth k))).map fun x => (Float.ofNat (a + 4 * k) + x.1, x.2)

theorem timed_attack {a : Nat} (ha : a + 4 < 2 ^ 53) (iteration : UInt32) (p : Pattern) :
    timed (Float.ofNat a) (attack iteration p : List (Entry (Event κ Phase) Phase)) =
      (body p).map fun x => (Float.ofNat a + x.1, x.2) :=
  (wholeRests_attack iteration p).timed_add (b := 0) ha

theorem loopTimes_succ (a n : Nat) (rolls : Rolls) :
    (loopTimes a (n + 1) rolls : List (Beat × Event κ Phase)) =
      (body (Pattern.pick rolls.draw.1)).map (fun x => (Float.ofNat a + x.1, x.2)) ++
        loopTimes (a + 4) n rolls.draw.2 := by
  have hnth : ∀ k, rolls.nth (k + 1) = rolls.draw.2.nth k := by
    intro k
    rw [Rolls.nth, Rolls.nth, Rolls.key_draw, Rolls.drawn_draw, Nat.add_assoc, Nat.add_comm k]
  have hbeat : ∀ k, a + 4 * (k + 1) = a + 4 + 4 * k := by
    intro k
    omega
  simp only [loopTimes, List.range_succ_eq_map, List.flatMap_cons, List.flatMap_map, hnth, hbeat]
  rfl

theorem timed_course {a n : Nat} {iteration : UInt32} {rolls : Rolls}
    (ha : a + (4 * n + 4) < 2 ^ 53) :
    timed (Float.ofNat a) (course n iteration rolls : List (Entry (Event κ Phase) Phase)) =
      loopTimes a n rolls ++
        [(Float.ofNat (a + 4 * n), .cue (.playStem "outro-stem" "outro")),
          (Float.ofNat (a + 4 * n), .cue (.light "outro-lights" "white"))] := by
  induction n generalizing a iteration rolls with
  | zero => rfl
  | succ n ih =>
    have hnext : elapsed (Float.ofNat a) (attack iteration (Pattern.pick rolls.draw.1) :
        List (Entry (Event κ Phase) Phase)) = Float.ofNat (a + 4) :=
      (wholeRests_attack iteration _).elapsed_eq (by omega)
    have htimed : timed (Float.ofNat a) (course (n + 1) iteration rolls) =
        timed (Float.ofNat a) (attack iteration (Pattern.pick rolls.draw.1) ++
          course n (iteration + 1) rolls.draw.2 : List (Entry (Event κ Phase) Phase)) := rfl
    rw [htimed, timed_append, hnext, timed_attack (by omega), ih (by omega), loopTimes_succ,
      List.append_assoc, show a + 4 + 4 * n = a + 4 * (n + 1) by omega]

/-- The events of an encounter of `n` loops, each with the beats between the start of the script
and the event. -/
def timetable (c : EncounterSettings) (rolls : Rolls) (n : Nat) : List (Beat × Event κ Phase) :=
  [(0, .cue (.playStem "intro-stem" c.stem)), (0, .cue (.moveCamera "intro-camera" 1.5 4)),
    (4, .cue (.light "intro-lights" "red"))] ++
  loopTimes 4 n rolls ++
  [(Float.ofNat (4 + 4 * n), .cue (.playStem "outro-stem" "outro")),
    (Float.ofNat (4 + 4 * n), .cue (.light "outro-lights" "white"))]

/-- The events of an encounter, each in its place. -/
def score (c : EncounterSettings) (rolls : Rolls) (n : Nat) (start : Beat) :
    List (Event κ Phase) :=
  (timetable c rolls n).map fun x => Placed.moveTo (start + x.1) x.2

/-! ## The whole encounter -/

/-- The entries that a script gets to in an encounter of `n` loops. -/
def fullCourse (c : EncounterSettings) (n : Nat) (rolls : Rolls) :
    List (Entry (Event κ Phase) Phase) :=
  (opening c).entry :: ((openingEntries c).take 5 ++ course n 0 rolls)

theorem wholeRests_overture (c : EncounterSettings) :
    WholeRests ((openingEntries c).take 5 : List (Entry (Event κ Phase) Phase)) 4 := by
  refine .other (fun _ h => ?_) (.other (fun _ h => ?_) (.other (fun _ h => ?_) (.rest 4
    (.other (fun _ h => ?_) .nil)))) <;> cases h

theorem wholeRests_fullCourse (c : EncounterSettings) (n : Nat) (rolls : Rolls) :
    WholeRests (fullCourse c n rolls : List (Entry (Event κ Phase) Phase)) (8 + 4 * n) := by
  have hall := (wholeRests_overture (κ := κ) c).append (wholeRests_course n 0 rolls)
  rw [show 8 + 4 * n = 4 + (4 * n + 4) by omega]
  refine .other (fun _ h => ?_) hall
  cases h

theorem timed_overture (c : EncounterSettings) :
    timed (Float.ofNat 0) ((openingEntries c).take 5 : List (Entry (Event κ Phase) Phase)) =
      [(0, .cue (.playStem "intro-stem" c.stem)), (0, .cue (.moveCamera "intro-camera" 1.5 4)),
        (4, .cue (.light "intro-lights" "red"))] := by
  have hrest : elapsed (Float.ofNat 0) [(.rest 4 : Entry (Event κ Phase) Phase)] = 4 :=
    elapsed_rest_ofNat (k := 4) (by norm_num)
  have hsplit : (openingEntries c).take 5 =
      ((openingEntries c).take 3 ++ (.rest 4 :: [.cue (.light "intro-lights" "red")]) :
        List (Entry (Event κ Phase) Phase)) := rfl
  have hfirst : elapsed (Float.ofNat 0)
      ((openingEntries c).take 3 : List (Entry (Event κ Phase) Phase)) = Float.ofNat 0 := rfl
  rw [hsplit, timed_append, hfirst, timed_cons, hrest]
  rfl

theorem timed_fullCourse (c : EncounterSettings) {n : Nat} (hn : n < 2 ^ 32) (rolls : Rolls) :
    timed 0 (fullCourse c n rolls : List (Entry (Event κ Phase) Phase)) = timetable c rolls n := by
  have hfour : elapsed (Float.ofNat 0)
      ((openingEntries c).take 5 : List (Entry (Event κ Phase) Phase)) = Float.ofNat 4 :=
    (wholeRests_overture c).elapsed_eq (by norm_num)
  have hcons : timed 0 (fullCourse c n rolls : List (Entry (Event κ Phase) Phase)) =
      timed (Float.ofNat 0) ((openingEntries c).take 5 ++ course n 0 rolls) := rfl
  rw [hcons, timed_append, hfour, timed_course (by omega), timed_overture, ← List.append_assoc]
  rfl

theorem beat_embed (c : Cue) : Placed.beat (Embeds.embed c : Event κ Phase) = c.beat := rfl

/-- All events of an encounter are written at beat zero. -/
theorem within_of_mem_fullCourse (c : EncounterSettings) (n : Nat) (rolls : Rolls) :
    ∀ e ∈ (fullCourse c n rolls : List (Entry (Event κ Phase) Phase)),
      e.Within (fun x => Placed.beat x = 0) fun _ => True := by
  have hattack : ∀ (iteration : UInt32) (p : Pattern),
      ∀ e ∈ (attack iteration p : List (Entry (Event κ Phase) Phase)),
        e.Within (fun x => Placed.beat x = 0) fun _ => True := by
    intro iteration p
    cases p <;> simp [attack, Pattern.entries, Entry.Within, Entry.cue, beat_embed, Cue.bringOn,
      Cue.moveCamera, Cue.light]
  have hcourse : ∀ iteration,
      ∀ e ∈ (course n iteration rolls : List (Entry (Event κ Phase) Phase)),
        e.Within (fun x => Placed.beat x = 0) fun _ => True := by
    induction n generalizing rolls with
    | zero =>
      simp [course, outroEntries, entry, Entry.Within, Entry.cue, beat_embed, Cue.playStem,
        Cue.light]
    | succ n ih =>
      intro iteration
      rw [course, List.forall_mem_cons, List.forall_mem_append]
      exact ⟨trivial, hattack _ _, ih _ _⟩
  rw [fullCourse, List.forall_mem_cons, List.forall_mem_append]
  refine ⟨trivial, ?_, hcourse 0⟩
  simp [openingEntries, Entry.Within, Entry.cue, beat_embed, Cue.playStem, Cue.moveCamera,
    Cue.light]

/-- The events of an encounter are placed at the start of the script and the beats of the
timetable. -/
theorem map_timed_fullCourse (c : EncounterSettings) {n : Nat} (hn : n < 2 ^ 32) (rolls : Rolls)
    (start : Beat) :
    (timed 0 (fullCourse c n rolls : List (Entry (Event κ Phase) Phase))).map (fun x =>
      Placed.moveTo (Placed.beat x.2 + start + x.1) x.2) = score c rolls n start := by
  rw [score, ← timed_fullCourse c hn rolls]
  refine List.map_congr_left fun x hx => ?_
  obtain ⟨m, hm, hx₁⟩ :=
    (wholeRests_fullCourse c n rolls).exists_of_mem_timed (a := 0) (by omega) hx
  have hzero : Placed.beat x.2 = 0 := within_of_mem_fullCourse c n rolls _ (mem_of_mem_timed hx)
  rw [hzero, hx₁, Beat.zero_add_add _ (Beat.not_isMinusZero_ofNat (by omega))]

theorem expanded_course (n : Nat) (iteration : UInt32) (rolls : Rolls) :
    (Report.tally (course n iteration rolls : List (Entry (Event κ Phase) Phase))).expanded =
      n + 2 := by
  have hattack : ∀ (iteration : UInt32) (p : Pattern), (Report.tally
      (attack iteration p : List (Entry (Event κ Phase) Phase))).expanded = 0 := by
    intro iteration p
    cases p <;> rfl
  induction n generalizing iteration rolls with
  | zero => rfl
  | succ n ih =>
    rw [course, Report.tally_cons, Report.tally_append]
    show 1 + ((Report.tally _).expanded + (Report.tally _).expanded) = _
    rw [hattack, ih]
    omega

variable {s : Script (Event κ Phase) Phase} {c : EncounterSettings} {n : UInt32}

/-- Until it stops, a script gets to the entries of the whole encounter. -/
theorem entries_of_opening {t : Script (Event κ Phase) Phase}
    {ps : List (Pass (Event κ Phase) Phase)} (hloops : c.loops = some n) (h : Leads s ps t)
    (hstop : t.stopped = true) (hgoing : s.stopped = false)
    (hqueue : s.queue.toList = [(opening c).entry]) :
    ps.map Pass.entry = fullCourse c n.toNat s.rolls ∧ t.queue.toList = [] ∧
      t.rolls = { s.rolls with drawn := s.rolls.drawn + n.toNat } := by
  obtain ⟨p, ps, rfl, hps, hp, hgoing₁, hqueue₁, hrolls₁⟩ :=
    uncons_of_entry h hstop hgoing hqueue
  have hloop : (loops c.loops).entry =
      ((loop (some (UInt32.ofNat n.toNat)) 0).entry : Entry (Event κ Phase) Phase) := by
    rw [hloops, UInt32.ofNat_toNat]
    rfl
  have hsplit : p.after.queue.toList =
      (openingEntries c).take 5 ++ [(loop (some (UInt32.ofNat n.toNat)) 0).entry] := by
    rw [hqueue₁, ← hloop]
    rfl
  obtain ⟨u, played, later, rfl, hplayed, hlater, hgoing₂, hqueue₂, hrolls₂⟩ :=
    hps.split_plain hstop hgoing₁ hsplit (by simp [openingEntries, Entry.IsPlain, Entry.cue])
  obtain ⟨hentries, hempty, hrolls⟩ :=
    entries_of_loops n.toNat_lt hlater hstop hgoing₂ hqueue₂
  have hsame : u.rolls = s.rolls := hrolls₂.trans hrolls₁
  rw [hsame] at hentries hrolls
  refine ⟨?_, hempty, hrolls⟩
  rw [List.map_cons, List.map_append, hplayed, hentries, hp]
  rfl

/-- A script of an encounter that has not begun. -/
def staged (label : String) (start runahead : Beat) (seed : UInt64) (limit : Option Nat)
    (c : EncounterSettings) : Script (Event κ Phase) Phase :=
  Script.seed { label, start, runahead, limit, rolls := .ofSeed seed } (.opening c)

/-- What a script of an encounter of `n` loops did by the time it stopped : it played its score
and stopped with an empty queue after `8 + 4 n` beats, having drawn `n` rolls and worked off `n + 3`
subroutines. -/
structure Played (c : EncounterSettings) (n : Nat) (seed : UInt64) (start : Beat)
    (r : Series (Event κ Phase) Phase) : Prop where
  events : r.effects.events = score c (.ofSeed seed) n start
  internal : r.script.internal = Float.ofNat (8 + 4 * n)
  queue : r.script.queue.toList = []
  rolls : r.script.rolls = { Rolls.ofSeed seed with drawn := n }
  expanded : (Report.tally (r.passes.map Pass.entry)).expanded = n + 3
  reported : ∀ reports : List Report, r.outcomes = reports.map .ok → reports.sum.expanded = n + 3

theorem played_of_drainAll {label : String} {start runahead : Beat} {seed : UInt64}
    {limit : Option Nat} {fuel : Nat} {nows : List Beat} {r : Series (Event κ Phase) Phase}
    (hloops : c.loops = some n)
    (hr : (staged label start runahead seed limit c).drainAll fuel nows = some r)
    (hstop : r.script.stopped = true) :
    Played c n.toNat seed start r := by
  have hn : n.toNat < 2 ^ 32 := n.toNat_lt
  obtain ⟨hleads, hevents, -⟩ := leads_of_drainAll hr
  obtain ⟨hentries, hempty, hrolls⟩ := entries_of_opening hloops hleads hstop rfl rfl
  obtain ⟨-, -, hinternal⟩ := hleads.time
  have hexpanded : (Report.tally (r.passes.map Pass.entry)).expanded = n.toNat + 3 := by
    rw [hentries, fullCourse, Report.tally_cons, Report.tally_append]
    show 1 + (0 + (Report.tally _).expanded) = _
    rw [expanded_course]
    omega
  refine ⟨?_, ?_, hempty, ?_, hexpanded, ?_⟩
  · rw [hevents, hleads.events, hentries]
    exact map_timed_fullCourse c hn _ start
  · have helapsed := (wholeRests_fullCourse (κ := κ) c n.toNat (.ofSeed seed)).elapsed_eq
      (a := 0) (by omega)
    rw [Nat.zero_add] at helapsed
    rw [hinternal, hentries]
    exact helapsed
  · rw [hrolls]
    show ({ Rolls.ofSeed seed with drawn := 0 + n.toNat } : Rolls) = _
    rw [Nat.zero_add]
  · intro reports hok
    rw [tally_of_drainAll hr hok, hexpanded]

end Phase

end Downbeat
