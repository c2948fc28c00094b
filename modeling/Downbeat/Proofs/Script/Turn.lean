import Downbeat.Script

/-!
# What a turn of a drain can do

A turn of a drain that finds something to do takes the first entry off the queue
(`Script.reach`) and works it off, drops it because it is a rest of no valid length, or puts
it back because of the limit. `Script.turn_spec` says so once for all later proofs, and
`Script.Drains` is a whole drain in the same terms, to go through it turn by turn.

The outcome of a turn hangs on the host only through its clock : the clock says whether the
script may work, and a subroutine may look at it. Subroutines that do not look at some part
of where the script stands are described by `Subroutine.Respects`, together with what they
lead to.
-/

namespace Downbeat

variable {ε φ : Type}

namespace Effects

/-- The effects without what is reported. -/
def quiet (fx : Effects ε) : Effects ε := { fx with notices := [] }

@[simp] theorem quiet_empty : ({} : Effects ε).quiet = {} := rfl

@[simp] theorem quiet_append (a b : Effects ε) : (a ++ b).quiet = a.quiet ++ b.quiet := rfl

@[simp] theorem quiet_notices (ns : List Notice) :
    ({ notices := ns } : Effects ε).quiet = {} := rfl

@[simp] theorem empty_append (a : Effects ε) : {} ++ a = a := rfl

@[simp] theorem append_empty (a : Effects ε) : a ++ {} = a := by
  obtain ⟨events, firings, notices⟩ := a
  show Effects.append _ _ = _
  simp [Effects.append]

theorem append_assoc (a b c : Effects ε) : a ++ b ++ c = a ++ (b ++ c) := by
  show Effects.append (Effects.append a b) c = Effects.append a (Effects.append b c)
  simp [Effects.append, List.append_assoc]

end Effects

/-! ## What subroutines look at -/

namespace Context

/-- The contexts differ at most in the clock of the host. -/
def SameScript (x y : Context) : Prop :=
  x.start = y.start ∧ x.runahead = y.runahead ∧ x.internal = y.internal

/-- The contexts differ at most in the clock of the host and in how far the script works
ahead. -/
def SamePlace (x y : Context) : Prop := x.start = y.start ∧ x.internal = y.internal

end Context

/-- All events in the entry are in `Q` and all subroutines in `P`. -/
def Entry.Within (Q : ε → Prop) (P : φ → Prop) : Entry ε φ → Prop
  | .event e => Q e
  | .expand f => P f
  | .rest _ | .marker _ | .stop => True

/-- The subroutines in `P` do the same in two contexts between which `A` sees no difference,
and they lead only to events in `Q` and to one another. -/
structure Subroutine.Respects [Subroutine φ ε] (A : Context → Context → Prop) (Q : ε → Prop)
    (P : φ → Prop) : Prop where
  expand_eq : ∀ {f : φ} {x y : Context}, P f → A x y → ∀ r : Rolls,
    (expand f x r : List (Entry ε φ) × Rolls) = expand f y r
  within : ∀ {f : φ}, P f → ∀ (x : Context) (r : Rolls),
    ∀ e ∈ (expand f x r : List (Entry ε φ) × Rolls).1, e.Within Q P

namespace Script

/-- All events in the queue are in `Q` and all subroutines in `P`. -/
def Within (Q : ε → Prop) (P : φ → Prop) (s : Script ε φ) : Prop :=
  ∀ e ∈ s.queue.toList, e.Within Q P

/-! ## The first entry -/

/-- The first entry of the queue, and the script that has got to it. -/
def reach (s : Script ε φ) : Option (Entry ε φ × Script ε φ) :=
  s.queue.next?.map fun (e, rest) => (e, { s with queue := rest, begun := true })

/-- Getting to an entry changes nothing but the queue, of which the entry was the head. -/
theorem reach_eq_some_iff {s left : Script ε φ} {e : Entry ε φ} :
    s.reach = some (e, left) ↔
      ∃ rest, s.queue.next? = some (e, rest) ∧ left = { s with queue := rest, begun := true } := by
  simp only [reach, Option.map_eq_some_iff, Prod.mk.injEq, Prod.exists]
  constructor
  · rintro ⟨e, rest, h, rfl, rfl⟩
    exact ⟨rest, h, rfl⟩
  · rintro ⟨rest, h, rfl⟩
    exact ⟨e, rest, h, rfl, rfl⟩

theorem toList_of_reach {s left : Script ε φ} {e : Entry ε φ} (h : s.reach = some (e, left)) :
    s.queue.toList = e :: left.queue.toList := by
  obtain ⟨rest, hq, rfl⟩ := reach_eq_some_iff.1 h
  exact Queue.toList_of_next? hq

theorem Within.of_reach {Q : ε → Prop} {P : φ → Prop} {s left : Script ε φ} {e : Entry ε φ}
    (hs : s.Within Q P) (h : s.reach = some (e, left)) : e.Within Q P ∧ left.Within Q P := by
  unfold Within at hs
  rw [toList_of_reach h, List.forall_mem_cons] at hs
  exact hs

variable [Placed ε] [Subroutine φ ε] [Described φ]

/-- What a turn does, in terms of the entry that the script gets to. -/
theorem turn_eq (now : Beat) (spent : Nat) (s : Script ε φ) :
    s.turn now spent =
      if s.isReady now then
        match s.reach with
        | none => .idle
        | some (e, left) =>
          if s.isAtLimit spent then
            .broken { s with begun := true } (.limitReached (s.limit.getD 0) now)
          else match consume now left e with
            | .error fault => .broken left fault
            | .ok (t, fx) => .worked e t fx
      else .idle := by
  unfold turn reach
  cases s.queue.next? with
  | none => rfl
  | some x => rfl

/-- The ways in which a turn can come out. -/
inductive TurnSpec (now : Beat) (spent : Nat) (s : Script ε φ) : Turn ε φ → Prop
  | idle (h : s.isReady now = false ∨ s.reach = none) : TurnSpec now spent s .idle
  /-- The limit is exceeded, and the entry goes back. -/
  | putBack {e : Entry ε φ} {left : Script ε φ} (ready : s.isReady now = true)
      (full : s.isAtLimit spent = true) (reach : s.reach = some (e, left)) :
      TurnSpec now spent s
        (.broken { s with begun := true } (.limitReached (s.limit.getD 0) now))
  /-- A rest of no valid length is dropped. -/
  | dropped {d : Beat} {left : Script ε φ} (ready : s.isReady now = true)
      (room : s.isAtLimit spent = false) (reach : s.reach = some (.rest d, left))
      (invalid : ¬IsValidRest d) : TurnSpec now spent s (.broken left (.invalidRest d))
  | worked {e : Entry ε φ} {left t : Script ε φ} {fx : Effects ε} (ready : s.isReady now = true)
      (room : s.isAtLimit spent = false) (reach : s.reach = some (e, left))
      (done : consume now left e = .ok (t, fx)) : TurnSpec now spent s (.worked e t fx)

/-- Only a rest of no valid length cannot be worked off. -/
theorem eq_rest_of_consume_eq_error {now : Beat} {s : Script ε φ} {e : Entry ε φ} {f : Fault}
    (h : consume now s e = .error f) : ∃ d, e = .rest d ∧ ¬IsValidRest d ∧ f = .invalidRest d := by
  cases e with
  | rest d =>
    rw [consume] at h
    split at h
    · cases h
    · rename_i hd
      cases h
      exact ⟨d, rfl, hd, rfl⟩
  | _ => cases h

theorem turn_spec (now : Beat) (spent : Nat) (s : Script ε φ) :
    TurnSpec now spent s (s.turn now spent) := by
  rw [turn_eq]
  cases hready : s.isReady now with
  | false => exact .idle (.inl hready)
  | true =>
    cases hreach : s.reach with
    | none => exact .idle (.inr hreach)
    | some x =>
      obtain ⟨e, left⟩ := x
      cases hroom : s.isAtLimit spent with
      | true => exact .putBack hready hroom hreach
      | false =>
        cases hdone : consume now left e with
        | error f =>
          obtain ⟨d, rfl, hd, rfl⟩ := eq_rest_of_consume_eq_error hdone
          simpa [hdone] using TurnSpec.dropped hready hroom hreach hd
        | ok r => simpa [hdone] using TurnSpec.worked hready hroom hreach hdone

/-- What a turn does that is not at the limit. -/
theorem turn_eq_of_reach {now : Beat} {spent : Nat} {s left : Script ε φ} {e : Entry ε φ}
    (ready : s.isReady now = true) (room : s.isAtLimit spent = false)
    (reach : s.reach = some (e, left)) : s.turn now spent =
      match consume now left e with
      | .error fault => .broken left fault
      | .ok (t, fx) => .worked e t fx := by
  simp [turn_eq, ready, room, reach]

theorem turn_eq_idle {now : Beat} {spent : Nat} {s : Script ε φ}
    (h : s.isReady now = false ∨ s.reach = none) : s.turn now spent = .idle := by
  rcases h with h | h
  · simp [turn_eq, h]
  · simp [turn_eq, h]

/-! ## Working off an entry -/

/-- Working off an entry leaves alone what a script is made with. -/
structure SameMake (s t : Script ε φ) : Prop where
  label : t.label = s.label
  start : t.start = s.start
  runahead : t.runahead = s.runahead
  limit : t.limit = s.limit
  begun : t.begun = s.begun

theorem sameMake_of_consume {now : Beat} {s t : Script ε φ} {e : Entry ε φ} {fx : Effects ε}
    (h : consume now s e = .ok (t, fx)) : s.SameMake t := by
  cases e with
  | rest d =>
    rw [consume] at h
    split at h <;> cases h
    exact ⟨rfl, rfl, rfl, rfl, rfl⟩
  | _ =>
    cases h
    exact ⟨rfl, rfl, rfl, rfl, rfl⟩

theorem limit_of_worked {now : Beat} {s left t : Script ε φ} {e : Entry ε φ} {fx : Effects ε}
    (reach : s.reach = some (e, left)) (done : consume now left e = .ok (t, fx)) :
    t.limit = s.limit := by
  obtain ⟨rest, -, rfl⟩ := reach_eq_some_iff.1 reach
  exact (sameMake_of_consume done).limit

/-- The events that an entry hands over are the entry, moved. -/
theorem exists_of_mem_events_of_consume {now : Beat} {s t : Script ε φ} {e : Entry ε φ}
    {fx : Effects ε} {x : ε} (h : consume now s e = .ok (t, fx)) (hx : x ∈ fx.events) :
    ∃ b y, e = .event y ∧ x = Placed.moveTo b y := by
  cases e with
  | rest d =>
    rw [consume] at h
    split at h <;> cases h
    cases hx
  | event y =>
    cases h
    exact ⟨_, y, rfl, List.mem_singleton.1 hx⟩
  | _ =>
    cases h
    cases hx

/-- Scripts fire nothing themselves. -/
theorem firings_of_consume {now : Beat} {s t : Script ε φ} {e : Entry ε φ} {fx : Effects ε}
    (h : consume now s e = .ok (t, fx)) : fx.firings = [] := by
  cases e with
  | rest d =>
    rw [consume] at h
    split at h <;> cases h
    rfl
  | _ =>
    cases h
    rfl

/-- A script in which all is within `Q` and `P` stays so. -/
theorem Within.of_consume {A : Context → Context → Prop} {Q : ε → Prop} {P : φ → Prop}
    (hP : Subroutine.Respects A Q P) {now : Beat} {s t : Script ε φ} {e : Entry ε φ}
    {fx : Effects ε} (he : e.Within Q P) (hs : s.Within Q P) (h : consume now s e = .ok (t, fx)) :
    t.Within Q P := by
  cases e with
  | rest d =>
    rw [consume] at h
    split at h <;> cases h
    exact hs
  | expand f =>
    cases h
    intro x hx
    rcases List.mem_append.1 (Queue.toList_append _ _ ▸ hx) with hx | hx
    · exact hs x hx
    · exact hP.within he _ _ x hx
  | _ =>
    cases h
    exact hs

/-- Where the subroutines of a script see no difference, its entries have the same effect but
for what is reported. -/
theorem consume_congr {A : Context → Context → Prop} {Q : ε → Prop} {P : φ → Prop}
    (hP : Subroutine.Respects A Q P) {now later : Beat} {s t : Script ε φ} {e : Entry ε φ}
    {fx : Effects ε} (he : e.Within Q P) (hA : A (s.context now) (s.context later))
    (h : consume now s e = .ok (t, fx)) :
    ∃ fx', consume later s e = .ok (t, fx') ∧ fx'.quiet = fx.quiet := by
  cases e with
  | rest d => exact ⟨fx, h, rfl⟩
  | expand f =>
    refine ⟨fx, ?_, rfl⟩
    rw [← h]
    simp only [consume, hP.expand_eq he hA]
  | _ =>
    cases h
    exact ⟨_, rfl, rfl⟩

/-! ## Whole drains -/

/-- What a drain that has worked off `spent` entries does, turn by turn. -/
inductive Drains (now : Beat) : (spent : Nat) → Script ε φ → Drained ε φ → Prop
  | idle {spent : Nat} {s : Script ε φ} (h : s.isReady now = false ∨ s.reach = none) :
      Drains now spent s ⟨s, {}, .ok {}⟩
  | putBack {spent : Nat} {s left : Script ε φ} {e : Entry ε φ} (ready : s.isReady now = true)
      (full : s.isAtLimit spent = true) (reach : s.reach = some (e, left)) :
      Drains now spent s
        ⟨{ s with begun := true }, {}, .error (.limitReached (s.limit.getD 0) now)⟩
  | dropped {spent : Nat} {s left : Script ε φ} {x : Beat} (ready : s.isReady now = true)
      (room : s.isAtLimit spent = false) (reach : s.reach = some (.rest x, left))
      (invalid : ¬IsValidRest x) : Drains now spent s ⟨left, {}, .error (.invalidRest x)⟩
  | worked {spent : Nat} {s left t : Script ε φ} {e : Entry ε φ} {fx : Effects ε}
      {d : Drained ε φ} (ready : s.isReady now = true) (room : s.isAtLimit spent = false)
      (reach : s.reach = some (e, left)) (done : consume now left e = .ok (t, fx))
      (rest : Drains now (spent + 1) t d) : Drains now spent s (d.after e fx)

theorem drains_of_drainFrom {now : Beat} {fuel spent : Nat} {s : Script ε φ} {d : Drained ε φ}
    (h : drainFrom now fuel spent s = some d) : Drains now spent s d := by
  induction fuel generalizing s spent d with
  | zero => cases h
  | succ fuel ih =>
    have hspec := turn_spec now spent s
    rw [drainFrom] at h
    generalize s.turn now spent = turn at h hspec
    cases hspec with
    | idle hidle =>
      cases h
      exact .idle hidle
    | putBack ready full reach =>
      cases h
      exact .putBack ready full reach
    | dropped ready room reach invalid =>
      cases h
      exact .dropped ready room reach invalid
    | worked ready room reach done =>
      obtain ⟨d', hd', rfl⟩ := Option.map_eq_some_iff.1 h
      exact .worked ready room reach done (ih hd')

theorem drainFrom_succ_of_worked {now : Beat} {fuel spent : Nat} {s t : Script ε φ}
    {e : Entry ε φ} {fx : Effects ε} (h : s.turn now spent = .worked e t fx) :
    drainFrom now (fuel + 1) spent s = (drainFrom now fuel (spent + 1) t).map (.after e fx) := by
  rw [drainFrom, h]

/-- A drain that ends well leaves nothing to do. -/
theorem Drains.idle_of_ok {now : Beat} {spent : Nat} {s : Script ε φ} {d : Drained ε φ}
    (h : Drains now spent s d) {r : Report} (hok : d.outcome = .ok r) :
    d.script.isReady now = false ∨ d.script.reach = none := by
  induction h generalizing r with
  | idle hidle => exact hidle
  | putBack => cases hok
  | dropped => cases hok
  | @worked _ _ _ _ _ _ d _ _ _ _ _ ih =>
    cases hd : d.outcome with
    | error f => simp [Drained.after, hd, Except.map] at hok
    | ok r' => exact ih hd

theorem Drains.firings {now : Beat} {spent : Nat} {s : Script ε φ} {d : Drained ε φ}
    (h : Drains now spent s d) : d.effects.firings = [] := by
  induction h with
  | worked ready room reach done _ ih =>
    rw [Drained.after, Effects.firings_append, firings_of_consume done, ih, List.append_nil]
  | _ => rfl

section

variable {A : Context → Context → Prop} {Q : ε → Prop} {P : φ → Prop}

/-- A drain keeps a script within what it started with, and leaves it its limit. -/
theorem Within.of_drains (hP : Subroutine.Respects A Q P) {now : Beat} {spent : Nat}
    {s : Script ε φ} {d : Drained ε φ} (hs : s.Within Q P) (h : Drains now spent s d) :
    d.script.Within Q P ∧ d.script.limit = s.limit := by
  induction h with
  | idle => exact ⟨hs, rfl⟩
  | putBack => exact ⟨hs, rfl⟩
  | dropped ready room reach =>
    have hleft := (hs.of_reach reach).2
    obtain ⟨rest, -, rfl⟩ := reach_eq_some_iff.1 reach
    exact ⟨hleft, rfl⟩
  | worked ready room reach done _ ih =>
    obtain ⟨he, hleft⟩ := hs.of_reach reach
    obtain ⟨hwithin, hlimit⟩ := ih (hleft.of_consume hP he done)
    exact ⟨hwithin, hlimit.trans (limit_of_worked reach done)⟩

/-- The events that a drain hands over are among those it started with, moved. -/
theorem Within.events_of_drains (hP : Subroutine.Respects A Q P)
    (hmove : ∀ (b : Beat) (e : ε), Q e → Q (Placed.moveTo b e)) {now : Beat} {spent : Nat}
    {s : Script ε φ} {d : Drained ε φ} (hs : s.Within Q P) (h : Drains now spent s d) :
    ∀ e ∈ d.effects.events, Q e := by
  induction h with
  | idle => exact fun _ h => nomatch h
  | putBack => exact fun _ h => nomatch h
  | dropped => exact fun _ h => nomatch h
  | worked ready room reach done _ ih =>
    obtain ⟨he, hleft⟩ := hs.of_reach reach
    intro e' he'
    rcases List.mem_append.1 he' with he' | he'
    · obtain ⟨b, e, rfl, rfl⟩ := exists_of_mem_events_of_consume done he'
      exact hmove b e he
    · exact ih (hleft.of_consume hP he done) e' he'

end

end Script

end Downbeat
