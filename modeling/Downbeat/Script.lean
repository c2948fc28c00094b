import Downbeat.Hosted
import Downbeat.Queue
import Downbeat.Subroutine

/-!
# Scripts

A script places the events of its queue on the time line of the host. It has a time of its
own, which begins with zero at the beat `start` and which only rests move on. An event that
the script gets to is placed at its own beat plus `start` plus the time of the script; this
is where it is due, however far the script works ahead. A script works ahead by `runahead`
beats : after a rest it goes on as soon as the host is at `restUntil`.

`Script.drain` works off all entries that are not behind a rest that is still to be waited
for, one after another (`Script.turn`). A subroutine puts its entries at the end of the
queue, where the same drain may get to them, so a drain need not end. It is therefore given
a bound on the number of its steps, and has no answer if it is not done within the bound. A
script may also have a limit of its own on the entries of one drain, which is a fault to
exceed.
-/

namespace Downbeat

/-- A script over events of type `ε` and subroutines of type `φ`. -/
structure Script (ε φ : Type) where
  label : String := "script"
  /-- The beat at which the time of the script is zero. -/
  start : Beat
  /-- How far the script works ahead. -/
  runahead : Beat
  /-- The time of the script. -/
  internal : Beat := 0
  /-- The beat of the host up to which the script rests. -/
  restUntil : Beat := start - runahead
  /-- The entries that the script has not got to. -/
  queue : Queue (Entry ε φ) := {}
  /-- Whether the script has got to an entry. -/
  begun : Bool := false
  stopped : Bool := false
  rolls : Rolls := .ofSeed 0
  /-- How many entries one drain may work off. -/
  limit : Option Nat := none

/-- How many entries of each kind a drain worked off. A stop is not counted. -/
structure Script.Report where
  injected : Nat := 0
  rests : Nat := 0
  expanded : Nat := 0
  markers : Nat := 0
deriving DecidableEq, Repr

namespace Script.Report

/-- The number of entries. -/
def total (r : Report) : Nat := r.injected + r.rests + r.expanded + r.markers

/-- The sum of two reports. -/
protected def add (a b : Report) : Report :=
  ⟨a.injected + b.injected, a.rests + b.rests, a.expanded + b.expanded, a.markers + b.markers⟩

instance : Add Report := ⟨Report.add⟩

/-- The report of one entry. -/
def ofEntry {ε φ : Type} : Entry ε φ → Report
  | .event _ => { injected := 1 }
  | .rest _ => { rests := 1 }
  | .expand _ => { expanded := 1 }
  | .marker _ => { markers := 1 }
  | .stop => {}

theorem total_add (a b : Report) : (a + b).total = a.total + b.total := by
  show (Report.add a b).total = _
  simp only [Report.add, total]
  omega

end Script.Report

namespace Script

variable {ε φ : Type}

/-- The script with entries added at the end of its queue. -/
def enqueue (s : Script ε φ) (es : List (Entry ε φ)) : Script ε φ :=
  { s with queue := s.queue.append es }

/-- The script with a subroutine added at the end of its queue. -/
def seed (s : Script ε φ) (f : φ) : Script ε φ := s.enqueue [.expand f]

/-- The number of entries that the script has not got to. -/
def pending (s : Script ε φ) : Nat := s.queue.size

/-- The script, which does not go on, and what it reports. -/
def stop (s : Script ε φ) : Script ε φ × List Notice :=
  ({ s with stopped := true }, if s.stopped then [] else [.stopped s.label s.internal])

/-- Where the script stands. -/
def context (s : Script ε φ) (now : Beat) : Context := ⟨s.start, s.runahead, s.internal, now⟩

/-! ## One entry -/

/-- Whether a rest of this length moves time on. -/
def IsValidRest (d : Beat) : Prop := ¬ (d.isNaN = true ∨ d < 0)

instance (d : Beat) : Decidable (IsValidRest d) := by unfold IsValidRest; infer_instance

/-- Works off the entry `e`, which is no longer in the queue. -/
def consume [Placed ε] [Subroutine φ ε] [Described φ] (now : Beat) (s : Script ε φ) :
    Entry ε φ → Except Fault (Script ε φ × Effects ε)
  | .rest d =>
    if IsValidRest d then
      .ok ({ s with restUntil := s.start + s.internal + d - s.runahead
                    internal := s.internal + d }, {})
    else .error (.invalidRest d)
  | .event e =>
    let due := Placed.beat e + s.start + s.internal
    .ok (s, { events := [Placed.moveTo due e]
              notices := Placed.refusal due e ++ [.injecting s.label due now] })
  | .expand f =>
    let (es, rolls) := Subroutine.expand f (s.context now) s.rolls
    .ok ({ s.enqueue es with rolls },
      { notices := [.expanding s.label (Described.description f) es.length s.internal] })
  | .marker m => .ok (s, { notices := [.marked s.label (s.start + s.internal) m] })
  | .stop => .ok (s.stop.1, { notices := s.stop.2 })

/-! ## Draining -/

/-- Whether the script may work off its next entry. -/
def isReady (s : Script ε φ) (now : Beat) : Bool := !s.stopped && s.restUntil ≤ now

/-- Whether a drain that has worked off `spent` entries has to end. -/
def isAtLimit (s : Script ε φ) (spent : Nat) : Bool := s.limit.any (· ≤ spent)

/-- One turn of a drain. -/
inductive Turn (ε φ : Type) where
  /-- There is nothing to do. -/
  | idle
  /-- There is no going on; the script is left as it is here. -/
  | broken (left : Script ε φ) (fault : Fault)
  /-- The entry `e` has been worked off. -/
  | worked (e : Entry ε φ) (left : Script ε φ) (effects : Effects ε)

/-- The next turn of a drain that has worked off `spent` entries. An entry beyond the limit
stays in the queue, and an entry with a fault does not. -/
def turn [Placed ε] [Subroutine φ ε] [Described φ] (now : Beat) (spent : Nat)
    (s : Script ε φ) : Turn ε φ :=
  if s.isReady now then
    match s.queue.next? with
    | none => .idle
    | some (e, rest) =>
      if s.isAtLimit spent then
        .broken { s with begun := true } (.limitReached (s.limit.getD 0) now)
      else
        let left := { s with queue := rest, begun := true }
        match consume now left e with
        | .error fault => .broken left fault
        | .ok (s, fx) => .worked e s fx
  else .idle

/-- What a drain did : the script after it, its effects, and its report or the fault that
ended it. -/
structure Drained (ε φ : Type) where
  script : Script ε φ
  effects : Effects ε
  outcome : Except Fault Report

/-- What a drain did that worked off `e` before, with effects `fx`. -/
def Drained.after (e : Entry ε φ) (fx : Effects ε) (d : Drained ε φ) : Drained ε φ :=
  ⟨d.script, fx ++ d.effects, d.outcome.map (Report.ofEntry e + ·)⟩

/-- Takes turns until there is nothing to do; `spent` entries have been worked off by this
drain. -/
def drainFrom [Placed ε] [Subroutine φ ε] [Described φ] (now : Beat) :
    (fuel spent : Nat) → Script ε φ → Option (Drained ε φ)
  | 0, _, _ => none
  | fuel + 1, spent, s =>
    match s.turn now spent with
    | .idle => some ⟨s, {}, .ok {}⟩
    | .broken left fault => some ⟨left, {}, .error fault⟩
    | .worked e left fx => (drainFrom now fuel (spent + 1) left).map (.after e fx)

/-- A drain that is done within a bound is done in the same way within a larger one. -/
theorem drainFrom_mono [Placed ε] [Subroutine φ ε] [Described φ] {now : Beat} {n m spent : Nat}
    {s : Script ε φ} {d : Drained ε φ} (h : drainFrom now n spent s = some d) (hnm : n ≤ m) :
    drainFrom now m spent s = some d := by
  induction n generalizing m spent s d with
  | zero => simp [drainFrom] at h
  | succ n ih =>
    obtain ⟨m, rfl⟩ := Nat.exists_eq_add_one_of_ne_zero (Nat.ne_zero_of_lt hnm)
    rw [drainFrom] at h ⊢
    split at h
    · exact h
    · exact h
    · obtain ⟨d', hd', rfl⟩ := Option.map_eq_some_iff.1 h
      rw [ih hd' (by omega), Option.map_some]

/-- What a script reports at the end of a drain. -/
def restNotice (s : Script ε φ) (now : Beat) : Except Fault Report → List Notice
  | .ok r => if 0 < r.rests then [.resting s.label now s.restUntil s.pending] else []
  | .error _ => []

/-- Works off all entries up to a rest that has to be waited for. -/
def drain [Placed ε] [Subroutine φ ε] [Described φ] (fuel : Nat) (now : Beat)
    (s : Script ε φ) : Option (Drained ε φ) :=
  (drainFrom now fuel 0 s).map fun d =>
    { d with effects := d.effects ++ { notices := d.script.restNotice now d.outcome } }

/-! ## Scripts as events -/

/-- A script is where it first may work, and can be moved until it has begun. -/
instance : Placed (Script ε φ) where
  beat s := s.start - s.runahead
  moveTo b s := if s.begun then s else { s with start := b + s.runahead, restUntil := b }
  refusal b s := if s.begun then [.moveIgnored s.label b] else []

/-- What a script does in a tick of its host : it drains, and stops if it cannot go on. -/
def tick [Placed ε] [Subroutine φ ε] [Described φ] (fuel : Nat) (now : Beat)
    (s : Script ε φ) : Option (Script ε φ × Effects ε) :=
  (s.drain fuel now).map fun d =>
    match d.outcome with
    | .ok _ => (d.script, d.effects)
    | .error fault =>
      (d.script.stop.1,
        d.effects ++ { notices := .failed s.label now fault :: d.script.stop.2 })

/-- A script lasts until it is stopped. -/
instance [Placed ε] [Subroutine φ ε] [Described φ] : Hosted (Script ε φ) ε where
  width _ := 1 / 0
  isDone s := s.stopped
  act fuel m now s :=
    match m with
    | .update => s.tick fuel now
    | .start | .finish => some (s, {})

end Script

end Downbeat
