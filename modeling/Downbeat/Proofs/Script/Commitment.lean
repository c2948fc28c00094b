import Downbeat.Proofs.Script.Nesting
import Downbeat.Proofs.Script.Walk

/-!
# When the timing of a script is settled

A script can be moved until it has begun. It begins with the first entry that a drain gets to, and
no entry changes its start, so the start is settled from then on. But a drain whose limit is no
entries at all begins the script as well, at an entry that it puts back. So a move takes effect as
long as no drain has consumed an entry and none was barred in this way (`Script.commits_of_run`),
and a script that may consume an entry in each drain begins with the first one that it consumes.
-/

set_option linter.unusedSectionVars false

namespace Downbeat

namespace Script

variable {ε φ : Type}

/-- Whether the call was a drain that got to an entry and could consume none at all. -/
def Record.isBarred (r : Record ε φ) : Bool :=
  match r.outcome with
  | some (.error (.limitReached 0 _)) => true
  | _ => false

/-- The call was a drain that consumed an entry, or that was barred from it. -/
def Record.Commits (r : Record ε φ) : Prop := r.consumed ≠ [] ∨ r.isBarred = true

theorem eq_zero_of_isAtLimit {s : Script ε φ} (h : s.isAtLimit 0 = true) : s.limit = some 0 := by
  rw [isAtLimit, Option.any_eq_true] at h
  obtain ⟨n, hn, hle⟩ := h
  rw [hn, Nat.le_zero.1 (of_decide_eq_true hle)]

variable [Placed ε] [Subroutine φ ε] [Described φ]

/-! ## One call -/

/-- A script that has got to an entry has begun. -/
theorem Leads.begun {s t : Script ε φ} {ps : List (Pass ε φ)} (h : Leads s ps t)
    (hbegun : s.begun = true ∨ ps ≠ []) : t.begun = true := by
  induction h with
  | refl => exact hbegun.resolve_right fun hne => hne rfl
  | putBack => rfl
  | pass _ reach _ ih => exact ih (.inl (begun_after reach _))

/-- What a drain does that can consume no entry : if it gets to one, it begins the script. -/
theorem drainFrom_of_barred {now : Beat} {fuel : Nat} {s : Script ε φ} {d : Drained ε φ}
    (hlimit : s.limit = some 0) (h : drainFrom now fuel 0 s = some d) :
    passes now fuel 0 s = [] ∧ (d = ⟨s, {}, .ok {}⟩ ∨
      d = ⟨{ s with begun := true }, {}, .error (.limitReached 0 now)⟩) := by
  cases fuel with
  | zero => cases h
  | succ fuel =>
    have hspec := turn_spec now 0 s
    have hfull : s.isAtLimit 0 = true := by rw [isAtLimit, hlimit]; rfl
    rw [drainFrom] at h
    rw [passes]
    generalize s.turn now 0 = turn at h hspec ⊢
    cases hspec with
    | idle =>
      cases h
      cases s.reach <;> exact ⟨rfl, .inl rfl⟩
    | putBack _ _ reach =>
      cases h
      rw [reach, hlimit]
      exact ⟨rfl, .inr rfl⟩
    | dropped _ room => exact absurd (room.symm.trans hfull) Bool.false_ne_true
    | worked _ room => exact absurd (room.symm.trans hfull) Bool.false_ne_true

/-- A drain that may consume an entry, and consumes none, leaves the script as it is. -/
theorem drainFrom_of_passes_eq_nil {now : Beat} {fuel : Nat} {s : Script ε φ} {d : Drained ε φ}
    (hlimit : s.limit ≠ some 0) (h : drainFrom now fuel 0 s = some d)
    (hnone : passes now fuel 0 s = []) : d = ⟨s, {}, .ok {}⟩ := by
  cases fuel with
  | zero => cases h
  | succ fuel =>
    have hspec := turn_spec now 0 s
    rw [drainFrom] at h
    rw [passes] at hnone
    generalize s.turn now 0 = turn at h hspec hnone
    cases hspec with
    | idle => exact (Option.some.inj h).symm
    | putBack _ full => exact absurd (eq_zero_of_isAtLimit full) hlimit
    | dropped _ _ reach => simp [reach] at hnone
    | worked _ _ reach => simp [reach] at hnone

/-- A drain that ends at the limit says which limit it is. -/
theorem Drains.limit_of_limitReached {now : Beat} {spent : Nat} {s : Script ε φ} {d : Drained ε φ}
    (h : Drains now spent s d) {n : Nat} {b : Beat}
    (hfault : d.outcome = .error (.limitReached n b)) : s.limit = some n := by
  induction h with
  | idle => cases hfault
  | dropped => cases hfault
  | @putBack _ s _ _ _ full _ =>
    cases hlimit : s.limit with
    | none => simp [isAtLimit, hlimit] at full
    | some k =>
      rw [hlimit] at hfault
      cases hfault
      rfl
  | @worked _ _ _ _ _ _ d _ _ reach done _ ih =>
    rw [← limit_of_worked reach done]
    refine ih ?_
    cases hd : d.outcome with
    | error f =>
      rw [Drained.after, hd] at hfault
      exact hfault
    | ok r => simp [Drained.after, hd, Except.map] at hfault

/-- A call begins the script if it is a drain that consumes an entry or is barred from it, and a
drain is barred only by a limit of no entries, with which none is ever consumed. -/
structure Begins (s t : Script ε φ) (r : Record ε φ) : Prop where
  limit : t.limit = s.limit
  begun : t.begun = true ↔ s.begun = true ∨ r.Commits
  barred : r.isBarred = true → s.limit = some 0
  consumed : s.limit = some 0 → r.consumed = []
  start : s.begun = true → t.start = s.start

theorem begins_of_drainFrom {now : Beat} {fuel : Nat} {s : Script ε φ} {d : Drained ε φ}
    (h : drainFrom now fuel 0 s = some d) :
    s.Begins d.script { passes := s.passes now fuel 0, outcome := some d.outcome } := by
  obtain ⟨hleads, -, -⟩ := leads_of_drainFrom h
  by_cases hlimit : s.limit = some 0
  · obtain ⟨hnone, rfl | rfl⟩ := drainFrom_of_barred hlimit h
    · rw [hnone]
      exact ⟨rfl, by simp [Record.Commits, Record.consumed, Record.isBarred], nofun, fun _ => rfl,
        fun _ => rfl⟩
    · rw [hnone]
      exact ⟨rfl, by simp [Record.Commits, Record.isBarred], fun _ => hlimit, fun _ => rfl,
        fun _ => rfl⟩
  · have hroom : Record.isBarred (ε := ε) (φ := φ)
        { passes := s.passes now fuel 0, outcome := some d.outcome } = false := by
      rw [Record.isBarred]
      split
      · rename_i b hfault
        exact absurd ((drains_of_drainFrom h).limit_of_limitReached (Option.some.inj hfault)) hlimit
      · rfl
    refine ⟨hleads.limit, ?_, fun hbarred => ?_, fun hzero => absurd hzero hlimit,
      fun _ => hleads.time.1⟩
    · rw [Record.Commits, hroom, Record.consumed, List.map_eq_nil_iff.ne]
      constructor
      · intro hbegun
        by_cases hnone : s.passes now fuel 0 = []
        · rw [drainFrom_of_passes_eq_nil hlimit h hnone] at hbegun
          exact .inl hbegun
        · exact .inr (.inl hnone)
      · rintro (hbegun | hsome | hbarred)
        · exact hleads.begun (.inl hbegun)
        · exact hleads.begun (.inr hsome)
        · cases hbarred
    · exact absurd (hroom.symm.trans hbarred) Bool.false_ne_true

/-- A call that is no drain does not begin the script. -/
theorem begins_of_no_drain {s t : Script ε φ} {r : Record ε φ} (hpasses : r.passes = [])
    (houtcome : r.outcome = none) (hlimit : t.limit = s.limit) (hbegun : t.begun = s.begun)
    (hstart : s.begun = true → t.start = s.start) : s.Begins t r := by
  have hconsumed : r.consumed = [] := by
    rw [Record.consumed, hpasses]
    rfl
  have hbarred : r.isBarred = false := by rw [Record.isBarred, houtcome]
  have hnone : ¬r.Commits := by simp [Record.Commits, hconsumed, hbarred]
  refine ⟨hlimit, ?_, fun h => absurd (hbarred.symm.trans h) Bool.false_ne_true,
    fun _ => hconsumed, hstart⟩
  rw [hbegun, or_iff_left hnone]

theorem begins_of_perform {fuel : Nat} {c : Call ε φ} {s t : Script ε φ} {r : Record ε φ}
    (h : s.perform fuel c = some (t, r)) : s.Begins t r := by
  cases c with
  | drain now =>
    obtain ⟨_, hdrain, hresult⟩ := Option.map_eq_some_iff.1 h
    obtain ⟨d, hd, rfl⟩ := Option.map_eq_some_iff.1 hdrain
    obtain ⟨rfl, rfl⟩ := Prod.mk.inj hresult
    have hbegins := begins_of_drainFrom hd
    exact hbegins
  | moveTo b =>
    cases h
    cases hbegun : s.begun with
    | true =>
      have hsame : Placed.moveTo b s = s := if_pos hbegun
      rw [hsame]
      exact begins_of_no_drain rfl rfl rfl rfl fun _ => rfl
    | false =>
      rw [moveTo_of_begun_eq_false hbegun]
      exact begins_of_no_drain rfl rfl rfl rfl fun h =>
        absurd (hbegun.symm.trans h) Bool.false_ne_true
  | _ =>
    cases h
    exact begins_of_no_drain rfl rfl rfl rfl fun _ => rfl

/-! ## Any number of calls -/

theorem begins_of_run {fuel : Nat} {calls : List (Call ε φ)} {s t : Script ε φ}
    {history : List (Record ε φ)} (h : s.run fuel calls = some (t, history)) :
    t.limit = s.limit ∧ (t.begun = true ↔ s.begun = true ∨ ∃ r ∈ history, r.Commits) ∧
      (∀ r ∈ history, (r.isBarred = true → s.limit = some 0) ∧
        (s.limit = some 0 → r.consumed = [])) ∧ (s.begun = true → t.start = s.start) := by
  induction calls generalizing s history with
  | nil =>
    cases h
    exact ⟨rfl, by simp, nofun, fun _ => rfl⟩
  | cons c calls ih =>
    obtain ⟨u, r, rest, hu, hrest, rfl⟩ := run_cons h
    obtain ⟨hlimit, hbegun, hbarred, hconsumed, hstart⟩ := begins_of_perform hu
    obtain ⟨hlimit', hbegun', hrecords, hstart'⟩ := ih hrest
    rw [hlimit] at hlimit' hrecords
    refine ⟨hlimit', ?_, List.forall_mem_cons.2 ⟨⟨hbarred, hconsumed⟩, hrecords⟩, fun hs => ?_⟩
    · simp only [hbegun', hbegun, List.mem_cons, exists_eq_or_imp, or_assoc]
    · exact (hstart' (hbegun.2 (.inl hs))).trans (hstart hs)

/-- A move takes effect, to whatever beat it is. -/
def IsMovable (t : Script ε φ) : Prop :=
  ∀ b, Placed.moveTo b t = { t with start := b + t.runahead, restUntil := b }

theorem isMovable_iff {t : Script ε φ} : t.IsMovable ↔ t.begun = false := by
  refine ⟨fun h => ?_, fun h => moveTo_of_begun_eq_false h⟩
  by_contra hbegun
  have hstays : ∀ b, t.restUntil = b := by
    intro b
    have hmove := h b
    have hsame : Placed.moveTo b t = t := if_pos (by simpa using hbegun)
    rw [hsame] at hmove
    exact congrArg restUntil hmove
  exact absurd ((hstays 0).symm.trans (hstays 1)) (by decide)

/-- How the timing of a script that was `s`, and is `t` with the calls of the history behind it, is
settled. -/
structure Settles (s : Script ε φ) (history : List (Record ε φ)) (t : Script ε φ) : Prop where
  /-- Until it is settled, every move takes effect. -/
  moves : (∀ r ∈ history, ¬r.Commits) → t.IsMovable ∧ ∀ b, Placed.refusal b t = []
  /-- From then on, none does, and it is reported. -/
  stays : (∃ r ∈ history, r.Commits) →
    ∀ b, Placed.moveTo b t = t ∧ Placed.refusal b t = [.moveIgnored t.label b]
  /-- It is the first consumed entry that settles it, unless a drain was barred. -/
  first : ((t.IsMovable ↔ ∀ r ∈ history, r.consumed = []) ↔ ∀ r ∈ history, r.isBarred = false)
  /-- Only a limit of no entries bars a drain, and there is no consumed entry then. -/
  barred : (∃ r ∈ history, r.isBarred = true) → s.limit = some 0 ∧ ∀ r ∈ history, r.consumed = []
  /-- A settled start is the start from then on. -/
  start : (∃ r ∈ history, r.Commits) → ∀ fuel calls u later,
    t.run fuel calls = some (u, later) → u.start = t.start
  /-- No entry changes the start, also of a drain that is not done. -/
  within : ∀ now fuel, ∀ p ∈ t.passes now fuel 0, p.script.start = t.start ∧ p.after.start = t.start

/-- However a script is given entries, moved, stopped and drained, its moves take effect until a
drain consumes an entry or is barred from it. -/
theorem commits_of_run {fuel : Nat} {calls : List (Call ε φ)} {s t : Script ε φ}
    {history : List (Record ε φ)} (hnew : s.begun = false)
    (h : s.run fuel calls = some (t, history)) : s.Settles history t := by
  obtain ⟨-, hbegun, hrecords, -⟩ := begins_of_run h
  rw [hnew, or_iff_right Bool.false_ne_true] at hbegun
  have hbarred : (∃ r ∈ history, r.isBarred = true) →
      s.limit = some 0 ∧ ∀ r ∈ history, r.consumed = [] := by
    rintro ⟨r, hr, hbarred⟩
    have hlimit := (hrecords r hr).1 hbarred
    exact ⟨hlimit, fun r hr => (hrecords r hr).2 hlimit⟩
  have hmovable : t.IsMovable ↔ ∀ r ∈ history, ¬r.Commits := by
    rw [isMovable_iff, ← Bool.not_eq_true, hbegun]
    simp only [not_exists, not_and]
  refine ⟨fun hnone => ?_, fun hsome b => ?_, ?_, hbarred, ?_, ?_⟩
  · have hmoves := hmovable.2 hnone
    exact ⟨hmoves, fun b => if_neg (by simp [isMovable_iff.1 hmoves])⟩
  · exact ⟨if_pos (hbegun.2 hsome), if_pos (hbegun.2 hsome)⟩
  · rw [hmovable]
    constructor
    · -- a barred drain settles the timing, and nothing is consumed
      intro hfirst r hr
      by_contra hbar
      have hbar' : r.isBarred = true := by simpa using hbar
      exact hfirst.2 (hbarred ⟨r, hr, hbar'⟩).2 r hr (.inr hbar')
    · intro hfree
      refine forall₂_congr fun r hr => ?_
      rw [Record.Commits, hfree r hr, or_iff_left Bool.false_ne_true, not_not]
  · intro hsome fuel calls u later hlater
    exact (begins_of_run hlater).2.2.2 (hbegun.2 hsome)
  · intro now fuel p hp
    obtain ⟨before, later, hsplit⟩ := List.append_of_mem hp
    obtain ⟨u, hleads⟩ := exists_leads_passes now fuel 0 t
    rw [hsplit] at hleads
    have hstart := hleads.time_at.1
    exact ⟨hstart, p.after_eq.1.trans hstart⟩

/-- A script that is moved about, also when it is too late for that. -/
def dithering : Script Playback.ShowEvent Phase :=
  { start := 4, runahead := 1, queue := .ofList [.expand .outro, .rest 2], limit := some 1 }

/-- The moves of `dithering`, the drain that comes too soon and the one at the limit included. -/
def dither : List (Call Playback.ShowEvent Phase) :=
  [.moveTo 6, .drain 5, .enqueue [.stop], .moveTo 8, .drain 8, .moveTo 20]

theorem commits_of_run_dithering : ∃ t history, dithering.run 4 dither = some (t, history) ∧
    history.map (fun r => r.consumed.length) = [0, 0, 0, 0, 1, 0] ∧ t.start = 9 ∧
    dithering.Settles history t := by
  have hrun : (dithering.run 4 dither).map (fun (t, history) =>
      (history.map fun r => r.consumed.length, t.start)) = some ([0, 0, 0, 0, 1, 0], 9) := by
    decide +kernel
  obtain ⟨⟨t, history⟩, h, hresult⟩ := Option.map_eq_some_iff.1 hrun
  obtain ⟨hconsumed, hstart⟩ := Prod.mk.inj hresult
  exact ⟨t, history, h, hconsumed, hstart, commits_of_run rfl h⟩

/-- A script that may consume no entries. -/
def shut : Script Playback.ShowEvent Phase :=
  { start := 0, runahead := 0, queue := .ofList [.rest 1], limit := some 0 }

/-- The only drain consumes nothing, and the move after it has no effect. -/
theorem shut_settles_without_entry : shut.begun = false ∧
    (shut.run 2 [.drain 0, .moveTo 5]).map (fun (t, history) =>
      (history.map (fun r => r.consumed.length), t.pending, t.start, t.restUntil)) =
        some ([0, 0], 1, 0, 0) ∧
    (shut.run 2 [.moveTo 5]).map (fun (t, _) => (t.pending, t.start, t.restUntil)) =
      some (1, 5, 5) := by
  decide +kernel

end Script

end Downbeat
