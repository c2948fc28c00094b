import Downbeat.Chance.Keystream

/-!
# Rolls

A script draws its chances as rolls : numbers in `[0, 1)`, in a fixed order for each
seed. Roll `i` uses words `2 i` and `2 i + 1` of the keystream, the first as the low
half of a 64-bit number, of which the upper 53 bits are kept (`Rolls.value`). A state is
the key and the number of rolls drawn so far, so two scripts with the same seed agree
roll by roll.
-/

namespace Downbeat

/-- A stream of rolls, part of it drawn. -/
structure Rolls where
  key : Keystream.Key
  drawn : Nat := 0

namespace Rolls

/-- The stream of a seed, nothing drawn. -/
def ofSeed (seed : UInt64) : Rolls := { key := .ofSeed seed }

/-- The upper 53 bits of a 64-bit number as a fraction of `2 ^ 53`. -/
def fraction (n : UInt64) : Float := (n >>> 11).toFloat / 9007199254740992

/-- Roll number `i` of the stream of `key`. A block of the keystream holds eight. -/
def value (key : Keystream.Key) (i : Nat) : Float :=
  let words := Keystream.block key (i / 8).toUInt64
  let low := words.getD (2 * (i % 8)) 0
  let high := words.getD (2 * (i % 8) + 1) 0
  fraction (low.toUInt64 ||| (high.toUInt64 <<< 32))

/-- The next roll and the stream after it. -/
def draw (r : Rolls) : Float × Rolls :=
  (value r.key r.drawn, { r with drawn := r.drawn + 1 })

/-- The next `n` rolls and the stream after them. -/
def drawMany : Nat → Rolls → List Float × Rolls
  | 0, r => ([], r)
  | n + 1, r =>
    let (x, r) := r.draw
    let (xs, r) := drawMany n r
    (x :: xs, r)

theorem drawn_draw (r : Rolls) : r.draw.2.drawn = r.drawn + 1 := rfl

theorem key_draw (r : Rolls) : r.draw.2.key = r.key := rfl

theorem drawn_drawMany (n : Nat) (r : Rolls) : (drawMany n r).2.drawn = r.drawn + n := by
  induction n generalizing r with
  | zero => rfl
  | succ n ih =>
    have h := ih r.draw.2
    simp only [drawMany]
    rw [h, drawn_draw]
    omega

end Rolls

end Downbeat
