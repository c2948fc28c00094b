import Downbeat.Proofs.Script.Immediate
import Downbeat.Proofs.Timeline.Arrival

/-!
# Cues fire in the order of their script

A script that brings on nothing but cues at beat zero hands them over in order, and the host visits
them in the order in which they came to the line. The cues that are early in a tick are therefore
the last of those that wait (`Cue.filter_append_filter`), so the others, which fire, are the next
ones of the script. Each tick keeps this up, whatever its step (`Timeline.Proceeds.tick`), and the
log of the host follows the script from the first cue on (`Timeline.follows_of_run`).
-/

set_option linter.unusedSectionVars false

namespace Downbeat

variable {α κ φ : Type}

namespace Script

variable {ε : Type} [Placed ε] [Subroutine φ ε] [Described φ] {s s' s'' : Script ε φ}
  {fx fx' : Effects ε} {n m : Nat} {nows later : List Beat}

/-! ## One tick after another -/

/-- Ticks at some beats, one after another, and what they do. -/
def tickAll (fuel : Nat) : List Beat → Script ε φ → Option (Script ε φ × Effects ε)
  | [], s => some (s, {})
  | now :: nows, s => do
    let (s, fx) ← s.tick fuel now
    let (s, more) ← tickAll fuel nows s
    return (s, fx ++ more)

theorem tickAll_cons {now : Beat} (h : s.tick n now = some (s', fx))
    (h' : s'.tickAll n nows = some (s'', fx')) :
    s.tickAll n (now :: nows) = some (s'', fx ++ fx') := by
  simp only [tickAll, h, h', bind, Option.bind_some, Option.pure_def]

theorem tickAll_singleton {now : Beat} (h : s.tick n now = some (s', fx)) :
    s.tickAll n [now] = some (s', fx) :=
  (tickAll_cons h rfl).trans (by rw [Effects.append_empty])

theorem exists_of_tickAll_cons {now : Beat} (h : s.tickAll n (now :: nows) = some (s'', fx)) :
    ∃ s' fx₁ fx₂, s.tick n now = some (s', fx₁) ∧ s'.tickAll n nows = some (s'', fx₂) ∧
      fx = fx₁ ++ fx₂ := by
  simp only [tickAll, bind, Option.bind_eq_some_iff, Option.pure_def, Option.some.injEq] at h
  obtain ⟨⟨s', fx₁⟩, hs', ⟨t, fx₂⟩, ht, h⟩ := h
  obtain ⟨rfl, rfl⟩ := Prod.mk.inj h
  exact ⟨s', fx₁, fx₂, hs', ht, rfl⟩

theorem tickAll_mono (h : s.tickAll n nows = some (s', fx)) (hnm : n ≤ m) :
    s.tickAll m nows = some (s', fx) := by
  induction nows generalizing s fx with
  | nil => exact h
  | cons now nows ih =>
    obtain ⟨t, fx₁, fx₂, ht, hs', rfl⟩ := exists_of_tickAll_cons h
    exact tickAll_cons (tick_mono ht hnm) (ih hs')

theorem tickAll_append (h : s.tickAll n nows = some (s', fx))
    (h' : s'.tickAll n later = some (s'', fx')) :
    s.tickAll n (nows ++ later) = some (s'', fx ++ fx') := by
  induction nows generalizing s fx with
  | nil =>
    cases h
    exact h'
  | cons now nows ih =>
    obtain ⟨t, fx₁, fx₂, ht, hs', rfl⟩ := exists_of_tickAll_cons h
    rw [Effects.append_assoc]
    exact tickAll_cons ht (ih hs')

/-- In ticks that follow each other the cues are handed over in order, also where one fails. -/
theorem exists_inOrder_of_tickAll [Placed κ] [Subroutine φ (Event κ φ)]
    {A : Context → Context → Prop} {P : φ → Prop}
    (hP : Subroutine.Respects A (@Event.IsImmediate κ φ) P) {s s' : Script (Event κ φ) φ}
    {fx : Effects (Event κ φ)} (hs : s.IsSound) (hwithin : s.Within Event.IsImmediate P)
    (h : s.tickAll n nows = some (s', fx)) :
    s'.IsSound ∧ s'.Within Event.IsImmediate P ∧ fx.firings = [] ∧ ∃ cues : List Cue,
      fx.events = cues.map .cue ∧ Cue.InOrder s.position s'.position cues := by
  induction nows generalizing s fx with
  | nil =>
    cases h
    exact ⟨hs, hwithin, rfl, [], rfl, .nil (Beat.le_refl hs.isUpward.isNaN)⟩
  | cons now nows ih =>
    obtain ⟨t, fx₁, fx₂, ht, hs', rfl⟩ := exists_of_tickAll_cons h
    obtain ⟨hsound, hwithin', hnone, cues, hcues, hinOrder⟩ :=
      exists_inOrder_of_tick hP hs hwithin ht
    obtain ⟨hlast, hwithinLast, hnone', more, hmore, hlater⟩ := ih hsound hwithin' hs'
    refine ⟨hlast, hwithinLast, ?_, cues ++ more, ?_, hinOrder.append hlater⟩
    · rw [Effects.firings_append, hnone, hnone', List.append_nil]
    · rw [Effects.events_append, hcues, hmore, List.map_append]

end Script

/-! ## Cues that wait -/

/-- Of cues in order those that are early are the last ones. -/
theorem Cue.filter_append_filter {now : Beat} {cues : List Cue}
    (h : (cues.map (·.beat)).Pairwise (· ≤ ·)) :
    cues.filter (¬now < ·.beat) ++ cues.filter (now < ·.beat) = cues := by
  induction cues with
  | nil => rfl
  | cons c cues ih =>
    obtain ⟨hc, hcues⟩ := List.pairwise_cons.1 h
    by_cases hearly : now < c.beat
    · have hall : ∀ c' ∈ c :: cues, now < c'.beat := by
        refine List.forall_mem_cons.2 ⟨hearly, fun c' hc' => ?_⟩
        exact Beat.lt_of_lt_of_le hearly (hc _ (List.mem_map_of_mem hc'))
      rw [List.filter_eq_nil_iff.2 fun c' hc' => by simpa using hall c' hc',
        List.filter_eq_self.2 fun c' hc' => by simpa using hall c' hc', List.nil_append]
    · rw [List.filter_cons_of_pos (by simpa using hearly),
        List.filter_cons_of_neg (by simpa using hearly), List.cons_append, ih hcues]

/-- If the cues that wait are in order, the next ones of them fire in a tick, and the others are
early. -/
theorem Slot.exists_calls (now : Beat) {xs : List (Cue × Bool)}
    (h : ((waiting xs).map (·.beat)).Pairwise (· ≤ ·)) :
    ∃ next, xs.flatMap (calls now) = next.map (·.firing now) ∧
      waiting xs = next ++ waiting (stay now xs) ∧ (∀ c ∈ next, ¬now < c.beat) ∧
      ∀ c ∈ waiting (stay now xs), now < c.beat := by
  rw [waiting_stay, flatMap_calls]
  refine ⟨_, rfl, (Cue.filter_append_filter h).symm, fun c hc => ?_, fun c hc => ?_⟩
  · exact of_decide_eq_true (List.mem_filter.1 hc).2
  · exact of_decide_eq_true (List.mem_filter.1 hc).2

namespace Timeline

open Slot Script

/-- What has fired of the cues that a script hands over, and what has not. -/
structure Follows {ε : Type} (cues : List Cue) (t : Timeline ε) : Prop where
  /-- The cues fire in their order, and none of them is left out. -/
  fires : t.fired.map Firing.plan <+: cues.map Cue.plan
  sorted : (t.fired.map (·.scheduled)).Pairwise (· ≤ ·)
  /-- No cue fires early. -/
  late : ∀ f ∈ t.fired, f.scheduled ≤ f.fired
  /-- The cues that have not fired are after the clock. -/
  waits : ∀ c ∈ cues.drop t.fired.length, t.clock.beat < c.beat

variable [Placed κ] [Hosted κ (Event κ φ)] [Subroutine φ (Event κ φ)] [Described φ]

/-! ## The place of the script -/

/-- The slot of a script that the host starts at beat `b`, with the clock at `now`. It may be gone if
the script has nothing to do any more. -/
def Seat (b now : Beat) (x : Script (Event κ φ) φ) (host : List (Slot (Event κ φ))) : Prop :=
  (∃ started, host = [⟨.script x, started, false⟩] ∧
    if started then ¬now < b else Placed.beat x = b) ∨
  host = [] ∧ ∀ later, x.isReady later = false ∨ x.reach = none

variable {b now clock : Beat} {x : Script (Event κ φ) φ} {host host' : List (Slot (Event κ φ))}
  {fx : Effects (Event κ φ)} {fuel : Nat}

/-- A tick that is not before `b` is one of the script. -/
theorem Seat.exists_tick (h : Seat b clock x host) (hle : clock ≤ now)
    (hvisit : runLine (Slot.visit fuel now) host = some (host', fx)) :
    ∃ x' host'', x.tickAll (fuel + 1) ([now].filter (¬· < b)) = some (x', fx) ∧
      runLine (Slot.retire fuel now) host' = some (host'', {}) ∧
      Seat b now x' (host''.filter (!·.isOver)) := by
  rcases h with ⟨started, rfl, hstarted⟩ | ⟨rfl, hidle⟩
  · obtain ⟨x', begun, host'', hretire, hkept, ⟨hearly, rfl, rfl, rfl⟩ | ⟨hready, rfl, htick⟩⟩ :=
      exists_of_visit_script hvisit
    · obtain ⟨hfirst, hlt⟩ := Bool.and_eq_true_iff.1 hearly
      obtain rfl : begun = false := by simpa using hfirst
      have hbeat : Placed.beat x' = b := hstarted
      rw [hbeat] at hlt
      refine ⟨x', host'', ?_, hretire, hkept.imp_left fun h => ⟨false, h, hbeat⟩⟩
      rw [List.filter_cons_of_neg (by simpa using hlt)]
      rfl
    · have hnow : ¬now < b := by
        intro hlt
        cases started with
        | true => exact hstarted (Beat.lt_of_le_of_lt hle hlt)
        | false =>
          have hbeat : Placed.beat x = b := hstarted
          exact hready (by simpa [hbeat] using hlt)
      refine ⟨x', host'', ?_, hretire, hkept.imp_left fun h => ⟨true, h, hnow⟩⟩
      rw [List.filter_cons_of_pos (by simpa using hnow)]
      exact tickAll_singleton (tick_mono htick (Nat.le_succ fuel))
  · obtain ⟨rfl, rfl⟩ := Prod.mk.inj (Option.some.inj hvisit)
    refine ⟨x, [], ?_, rfl, .inr ⟨rfl, hidle⟩⟩
    by_cases hearly : now < b
    · rw [List.filter_cons_of_neg (by simpa using hearly)]
      rfl
    · rw [List.filter_cons_of_pos (by simpa using hearly)]
      exact tickAll_singleton (tick_of_idle (hidle now) fuel)

/-! ## Ticks of the host -/

/-- The host has a script at its place and the cues that it has handed over so far : the first of
them have fired, in order and not early, and the others wait behind the script. -/
structure Proceeds (P : φ → Prop) (b : Beat) (x : Script (Event κ φ) φ) (cues : List Cue)
    (t : Timeline (Event κ φ)) : Prop where
  forward : 0 ≤ t.clock.beat
  sound : x.IsSound
  within : x.Within Event.IsImmediate P
  inOrder : ∃ a, Cue.InOrder a x.position cues
  line : ∃ host xs past, t.slots = host ++ xs.map ofCue ∧ Seat b t.clock.beat x host ∧
    cues = past ++ waiting xs ∧ t.fired.map Firing.plan = past.map Cue.plan ∧
    ∀ c ∈ waiting xs, t.clock.beat < c.beat
  late : ∀ f ∈ t.fired, f.scheduled ≤ f.fired

variable {A : Context → Context → Prop} {P : φ → Prop} {cues : List Cue}
  {t t' : Timeline (Event κ φ)} {notices : List Notice}

theorem Proceeds.tick {k : Tick} (hP : Subroutine.Respects A (@Event.IsImmediate κ φ) P)
    (h : Proceeds P b x cues t) (ht : t.tick fuel k = some (t', notices)) :
    ∃ x' fx new, x.tickAll (fuel + 1) ([(k.clock t.clock).beat].filter (¬· < b)) = some (x', fx) ∧
      fx.events = new.map .cue ∧ t'.clock = k.clock t.clock ∧ Proceeds P b x' (cues ++ new) t' := by
  obtain ⟨hforward, hsound, hwithin, ⟨a, hinOrder⟩,
    ⟨host, xs, past, hslots, hseat, hcues, hfired, -⟩, hlate⟩ := h
  have hle := le_clock hforward k
  rw [tick_eq] at ht
  generalize hclock : k.clock t.clock = c at *
  obtain ⟨host', fx, hvisit, hall⟩ :=
    exists_of_process_cues (t := { t with clock := c }) hslots ht
  obtain ⟨x', host'', htick, hretire, hseat'⟩ := hseat.exists_tick hle hvisit
  obtain ⟨hsound', hwithin', hnone, new, hnew, hlater⟩ :=
    exists_inOrder_of_tickAll hP hsound hwithin htick
  obtain ⟨hslots', hlog', hclock'⟩ := hall hnew hnone hretire
  have hclock'' : t'.clock = c := hclock'
  -- the new cues join those that wait, in the order of the script
  have hinOrder' : Cue.InOrder a x'.position (cues ++ new) := hinOrder.append hlater
  have hall' : cues ++ new = past ++ waiting (xs ++ new.map (·, false)) := by
    rw [waiting_append, waiting_new, hcues, List.append_assoc]
  have hsub : (waiting (xs ++ new.map (·, false))).Sublist (cues ++ new) :=
    hall' ▸ List.sublist_append_right _ _
  obtain ⟨next, hcalls, hwaiting, hready, hearly⟩ :=
    exists_calls c.beat (hinOrder'.sorted.sublist (hsub.map _))
  have hfired' : t'.fired = t.fired ++ next.map (·.firing c.beat) := by
    rw [fired, hlog', List.reverse_append, List.reverse_reverse, hcalls]
    rfl
  refine ⟨x', fx, new, htick, hnew, hclock'', hclock''.symm ▸ Beat.le_trans hforward hle, hsound',
    hwithin', ⟨a, hinOrder'⟩, ⟨_, _, past ++ next, hslots', hclock''.symm ▸ hseat', ?_, ?_,
      hclock''.symm ▸ hearly⟩, ?_⟩
  · rw [hall', hwaiting, List.append_assoc]
  · rw [hfired', List.map_append, hfired, List.map_append, List.map_map]
    rfl
  · rw [hfired']
    refine List.forall_mem_append.2 ⟨hlate, fun f hf => ?_⟩
    obtain ⟨cue, hcue, rfl⟩ := List.mem_map.1 hf
    have hmem : cue ∈ cues ++ new := by
      rw [hall', hwaiting]
      exact List.mem_append_right _ (List.mem_append_left _ hcue)
    have hnan := (Beat.le_iff.1 (hinOrder'.bounds cue hmem).1).2.1
    by_contra hlt
    exact hready cue hcue ((Beat.not_le_iff hnan (Beat.le_iff.1 hle).2.1).1 hlt)

/-- In a run of ticks the script hands over what it hands over in ticks of its own at the same
beats, from its beat on. -/
theorem Proceeds.run {deeds : List (Deed α (Event κ φ))}
    (hP : Subroutine.Respects A (@Event.IsImmediate κ φ) P) (h : Proceeds P b x cues t)
    (hticks : ∀ owner e, .add owner e ∉ deeds) (ht : t.run deeds = some t') :
    ∃ n x' fx new, x.tickAll n ((Deed.beats t.clock deeds).filter (¬· < b)) = some (x', fx) ∧
      fx.events = new.map .cue ∧ Proceeds P b x' (cues ++ new) t' := by
  induction deeds generalizing t x cues with
  | nil =>
    cases ht
    exact ⟨0, x, {}, [], rfl, rfl, by rwa [List.append_nil]⟩
  | cons deed deeds ih =>
    cases deed with
    | add owner e => exact absurd List.mem_cons_self (hticks owner e)
    | tick fuel k =>
      obtain ⟨t₁, notices, htick, ht'⟩ := exists_of_run_tick ht
      obtain ⟨x₁, fx₁, first, hx₁, hfirst, hclock, h₁⟩ := h.tick hP htick
      obtain ⟨n, x', fx₂, later, hx', hlater, h'⟩ :=
        ih h₁ (fun owner e he => hticks owner e (List.mem_cons_of_mem _ he)) ht'
      refine ⟨max (fuel + 1) n, x', fx₁ ++ fx₂, first ++ later, ?_, ?_, ?_⟩
      · rw [hclock] at hx'
        rw [Deed.beats, ← List.singleton_append, List.filter_append]
        exact tickAll_append (tickAll_mono hx₁ (Nat.le_max_left _ _))
          (tickAll_mono hx' (Nat.le_max_right _ _))
      · rw [Effects.events_append, hfirst, hlater, List.map_append]
      · rwa [← List.append_assoc]

theorem Proceeds.follows (h : Proceeds P b x cues t) : Follows cues t := by
  obtain ⟨-, -, -, ⟨a, hinOrder⟩, ⟨host, xs, past, -, -, hcues, hfired, hearly⟩, hlate⟩ := h
  have hlength : t.fired.length = past.length := by
    simpa using congrArg List.length hfired
  refine ⟨⟨(waiting xs).map Cue.plan, ?_⟩, ?_, hlate, ?_⟩
  · rw [hfired, hcues, List.map_append]
  · have hscheduled : t.fired.map (·.scheduled) = past.map (·.beat) := by
      have := congrArg (List.map (·.2.2)) hfired
      rwa [List.map_map, List.map_map] at this
    rw [hscheduled]
    exact hinOrder.sorted.sublist ((hcues ▸ List.sublist_append_left _ _).map _)
  · rwa [hlength, hcues, List.drop_left]

/-- A host that has nothing but a script that brings on nothing but cues at beat zero. Whatever the
steps of its ticks, its log is the beginning of what the script hands over in ticks of its own at
the same beats, in order and none of it early, and has all of it that is not after the clock. -/
theorem follows_of_run {s : Script (Event κ φ) φ} {deeds : List (Deed α (Event κ φ))}
    (hP : Subroutine.Respects Eq (@Event.IsImmediate κ φ) P)
    (hwithin : s.Within Event.IsImmediate P) (hs : s.IsSound)
    (hslots : t.slots = [{ event := .script s }]) (hlog : t.log = []) (hclock : 0 ≤ t.clock.beat)
    (hticks : ∀ owner e, .add owner e ∉ deeds) (h : t.run deeds = some t') :
    ∃ n s' fx cues, s.tickAll n ((Deed.beats t.clock deeds).filter (¬· < Placed.beat s)) =
        some (s', fx) ∧ fx.events = cues.map .cue ∧ Follows cues t' := by
  have hfired : t.fired = [] := by rw [fired, hlog, List.reverse_nil]
  have hseat : Seat (Placed.beat s) t.clock.beat s [{ event := .script s }] :=
    .inl ⟨false, rfl, rfl⟩
  have hstart : Proceeds P (Placed.beat s) s [] t :=
    ⟨hclock, hs, hwithin, ⟨_, .nil (Beat.le_refl hs.isUpward.isNaN)⟩,
      ⟨_, [], [], hslots, hseat, rfl, by rw [hfired]; rfl, List.forall_mem_nil _⟩,
      by rw [hfired]; exact List.forall_mem_nil _⟩
  obtain ⟨n, s', fx, cues, htickAll, hcues, h'⟩ := hstart.run hP hticks h
  exact ⟨n, s', fx, cues, htickAll, hcues, h'.follows⟩

/-- A script that comes to an encounter on beats that are rounded. -/
def march : Script Playback.ShowEvent Phase :=
  { start := 1.3
    runahead := 0.6
    queue := .ofList
      [.cue (.light "dusk" "blue"), .rest 0.1, .expand (.opening { loops := some 1 })] }

/-- A host with nothing but this script. -/
def parade : Timeline Playback.ShowEvent where
  slots := [{ event := .script march }]

/-- Short and long ticks, and some that do not move the clock. -/
def strides : List (Deed Unit Playback.ShowEvent) :=
  [.tick 30 .process, .tick 30 (.advance 0.75), .tick 30 (.advanceTo 3.3),
    .tick 30 (.advance (-2)), .tick 30 (.advanceSeconds 1.3 97), .tick 30 (.advance 2.4)]

theorem follows_of_run_parade : ∃ t', parade.run strides = some t' ∧ t'.fired.length = 7 ∧
    t'.slots.length = 2 ∧ ∃ n s' fx cues,
      march.tickAll n ((Deed.beats parade.clock strides).filter (¬· < Placed.beat march)) =
        some (s', fx) ∧ fx.events = cues.map .cue ∧ Follows cues t' := by
  have hrun : (parade.run strides).any (fun t => t.fired.length == 7 && t.slots.length == 2) =
      true := by decide +kernel
  obtain ⟨t', ht', hcounts⟩ := (Option.any_eq_true _ _).1 hrun
  simp only [Bool.and_eq_true, beq_iff_eq] at hcounts
  have hrespects : Subroutine.Respects Eq (@Event.IsImmediate Empty Phase) fun _ => True :=
    Phase.respects_of_zero _ fun c hc => ⟨c, rfl, by rw [hc]; decide⟩
  have hwithin : march.Within Event.IsImmediate fun _ => True := by
    simp only [Script.Within, march, Queue.toList_ofList, List.forall_mem_cons]
    exact ⟨⟨_, rfl, by decide⟩, trivial, trivial, nofun⟩
  exact ⟨t', ht', hcounts.1, hcounts.2, follows_of_run hrespects hwithin
    ⟨by decide, by decide⟩ rfl rfl (by decide) (by simp [strides]) ht'⟩

end Timeline

end Downbeat
