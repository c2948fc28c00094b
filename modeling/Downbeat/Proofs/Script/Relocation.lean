import Downbeat.Proofs.Beat.Slip
import Downbeat.Proofs.Script.Nesting

/-!
# Moving an idle script

Of the moves of a script that has not begun only the last one counts (`Script.moveAll_concat`). It
says up to where the script rests. The beat of the script is not kept : it is the start, to which
the script is moved by what it works ahead, less what it works ahead. So the host starts the script
when this is ready if the beat that it is moved to absorbs what the start is rounded by
(`Script.isMovedTo_of_moveAll`). Otherwise the host starts it at a beat at which it rests, or leaves
it when it could go on.
-/

namespace Downbeat

namespace Beat

/-- The same comes before two beats if these are equal. -/
theorem forall_lt_iff {a b : Beat} (ha : a.isNaN = false) (hb : b.isNaN = false) :
    (∀ now : Beat, now.isNaN = false → (now < a ↔ now < b)) ↔ (a == b) = true := by
  constructor
  · intro h
    have hirrefl : ∀ x : Beat, ¬x < x := fun x hx => (lt_iff.1 hx).2.2.false
    have hba : ¬b < a := fun hlt => hirrefl b ((h b hb).1 hlt)
    have hab : ¬a < b := fun hlt => hirrefl a ((h a ha).2 hlt)
    rw [← not_le_iff ha hb, not_not] at hba
    rw [← not_le_iff hb ha, not_not] at hab
    exact beq_iff_le_and_le.2 ⟨hba, hab⟩
  · intro h now _
    rw [lt_iff, lt_iff, ha, hb, (beq_iff.1 h).2.2]

end Beat

namespace Script

/-- The script after moves, one after another. -/
def moveAll {ε φ : Type} (s : Script ε φ) (bs : List Beat) : Script ε φ :=
  bs.foldl (fun s b => Placed.moveTo b s) s

/-- The last move undoes those before. -/
theorem moveAll_concat {ε φ : Type} {s : Script ε φ} (h : s.begun = false) (bs : List Beat)
    (b : Beat) : s.moveAll (bs ++ [b]) = Placed.moveTo b s := by
  induction bs generalizing s with
  | nil => rfl
  | cons a bs ih =>
    have hmove := moveTo_of_begun_eq_false h a
    have hbegun : (Placed.moveTo a s).begun = false := by rw [hmove, h]
    show (Placed.moveTo a s).moveAll (bs ++ [b]) = _
    rw [ih hbegun, moveTo_of_begun_eq_false hbegun, hmove, moveTo_of_begun_eq_false h]

variable {κ φ : Type} [Placed κ]

/-- The host starts the script at the beats at which it is ready. -/
def StartsWhenReady (s : Script (Event κ φ) φ) : Prop :=
  ∀ now : Beat, now.isNaN = false →
    ({ event := .script s } : Slot (Event κ φ)).isEarly now = !s.isReady now

open Beat in
/-- What has come of the script `s` that was moved to the beat `b`. -/
structure IsMovedTo (b : Beat) (s t : Script (Event κ φ) φ) : Prop where
  /-- Nothing else has come of it. -/
  moved : t = { s with start := b + s.runahead, restUntil := b }
  /-- Its beat is off by what the start is rounded by, and rounded again. -/
  place : place (Placed.beat t) = inRange (nearest (value b + slip (value b) (value s.runahead)))
  /-- Its beat is the one that it was moved to if this absorbs the slip. -/
  meets : (Placed.beat t == b) = true ↔ Absorbs (value b) (slip (value b) (value s.runahead))
  agrees : (Placed.beat t == t.restUntil) = true ↔
    Absorbs (value b) (slip (value b) (value s.runahead))
  starts : s.stopped = false →
    (t.StartsWhenReady ↔ Absorbs (value b) (slip (value b) (value s.runahead)))
  /-- If the start is rounded up, the script is not started before it is ready. -/
  late : 0 ≤ slip (value b) (value s.runahead) → t.restUntil ≤ Placed.beat t
  /-- If the start is rounded down, the script is not ready before it is started. -/
  early : slip (value b) (value s.runahead) ≤ 0 → Placed.beat t ≤ t.restUntil

/-- The host starts a script when it is ready if the two beats of the script agree. -/
theorem startsWhenReady_iff {s : Script (Event κ φ) φ} (hstopped : s.stopped = false)
    (hbeat : (Placed.beat s).isNaN = false) (hrest : s.restUntil.isNaN = false) :
    s.StartsWhenReady ↔ (Placed.beat s == s.restUntil) = true := by
  rw [← Beat.forall_lt_iff hbeat hrest]
  refine forall₂_congr fun now hnow => ?_
  have hready : s.isReady now = !decide (now < s.restUntil) := by
    rw [isReady, hstopped, Bool.not_false, Bool.true_and, ← decide_not, decide_eq_decide,
      ← Beat.not_le_iff hrest hnow, not_not]
  rw [hready, Bool.not_not]
  exact decide_eq_decide

/-- A script that has not begun has its clocks in the same place after some moves if the last beat
that it is moved to absorbs what the start is rounded by. -/
theorem isMovedTo_of_moveAll {s : Script (Event κ φ) φ} (hbegun : s.begun = false) (bs : List Beat)
    {b : Beat} (hb : (b + s.runahead).isFinite = true) : s.IsMovedTo b (s.moveAll (bs ++ [b])) := by
  have hmoved : s.moveAll (bs ++ [b]) = { s with start := b + s.runahead, restUntil := b } := by
    rw [moveAll_concat hbegun, moveTo_of_begun_eq_false hbegun]
  obtain ⟨hnan, hplace⟩ := Beat.place_add_sub hb
  have hrest := Beat.isNaN_of_isFinite (Beat.isFinite_of_isFinite_add hb).1
  rw [hmoved]
  exact {
    moved := rfl
    place := hplace
    meets := Beat.add_sub_eq_iff hb
    agrees := Beat.add_sub_eq_iff hb
    starts := fun hstopped =>
      (startsWhenReady_iff (s := { s with start := b + s.runahead, restUntil := b })
        hstopped hnan hrest).trans (Beat.add_sub_eq_iff hb)
    late := Beat.le_add_sub hb
    early := Beat.add_sub_le hb }

/-- A script that works ahead by a fifth of a beat. -/
def errant : Script (Event Empty Empty) Empty where
  start := 0
  runahead := 0.2

/-- The start is rounded, and the beat absorbs it. -/
theorem isMovedTo_of_moveAll_errant : errant.IsMovedTo 0.7 (errant.moveAll ([0.1] ++ [0.7])) ∧
    (Placed.beat (errant.moveAll [0.1, 0.7]) == 0.7) = true :=
  ⟨isMovedTo_of_moveAll rfl [0.1] (by decide), by decide⟩

/-- The script is moved to beat 0.1 and is ready there, and its beat is later. -/
theorem errant_leaves_beat : errant.begun = false ∧ errant.start.isFinite = true ∧
    errant.runahead.isFinite = true ∧ 0 ≤ errant.runahead ∧
    ((0.1 : Beat) + errant.runahead).isFinite = true ∧
    (errant.moveAll [0.1]).restUntil = 0.1 ∧
    Placed.beat (errant.moveAll [0.1]) = 0.10000000000000003 ∧
    (errant.moveAll [0.1]).isReady 0.1 = true ∧
    ({ event := .script (errant.moveAll [0.1]) } : Slot (Event Empty Empty)).isEarly 0.1 = true := by
  decide +kernel

end Script

end Downbeat
