import Downbeat.Decimal.Binary

/-!
# The fewest digits that read back

Every real number in a certain interval around a double rounds to that double : from
halfway to the double below to halfway to the double above, ends included when the
mantissa is even. `shortest` looks for a decimal in this interval on coarser and coarser
grids of powers of ten, the coarsest grid with a hit giving the fewest digits. On each
grid only the two neighbours of the double have to be tried, and of two hits the nearer
one is taken.
-/

namespace Downbeat.Decimal

/-- The decimal `digits · 10 ^ exponent`. -/
structure Scaled where
  digits : Nat
  exponent : Int
deriving DecidableEq, Repr

/-- The numbers that round to a double, as multiples of a quarter of its last place. -/
structure Basin where
  low : Nat
  mid : Nat
  high : Nat
  closed : Bool
  /-- The power of two of one quarter. -/
  exponent : Int
deriving DecidableEq, Repr

/-- The basin of a double that is not zero. -/
def Magnitude.basin (m : Magnitude) : Basin where
  low := 4 * m.mantissa - (if m.leansDown then 1 else 2)
  mid := 4 * m.mantissa
  high := 4 * m.mantissa + 2
  closed := m.mantissa % 2 == 0
  exponent := m.exponent - 2

namespace Basin

/-- What the multiples of `10 ^ k` and the ends of the basin are multiplied by to become
whole. -/
def gridScale (b : Basin) (k : Int) : Nat := powNum 10 k * powDen 2 b.exponent

@[inherit_doc gridScale]
def edgeScale (b : Basin) (k : Int) : Nat := powNum 2 b.exponent * powDen 10 k

/-- Whether `n · 10 ^ k` lies in the basin. -/
def holds (b : Basin) (k : Int) (n : Nat) : Bool :=
  let x := n * b.gridScale k
  let low := b.low * b.edgeScale k
  let high := b.high * b.edgeScale k
  if b.closed then low ≤ x && x ≤ high else low < x && x < high

/-- The multiple of `10 ^ k` in the basin that is nearest to its middle, if there is one. -/
def hit (b : Basin) (tie : Tie) (k : Int) : Option Nat :=
  let num := b.mid * b.edgeScale k
  let den := b.gridScale k
  let n := num / den
  match b.holds k n, b.holds k (n + 1) with
  | true, true => some (roundQuotient tie num den)
  | true, false => some n
  | false, true => some (n + 1)
  | false, false => none

/-- The hit on the coarsest of `fuel` grids from `10 ^ k` down. -/
def search (b : Basin) (tie : Tie) : Nat → Int → Scaled
  | 0, k => ⟨roundQuotient tie (b.mid * b.edgeScale k) (b.gridScale k), k⟩
  | fuel + 1, k =>
    match b.hit tie k with
    | some n => ⟨n, k⟩
    | none => search b tie fuel (k - 1)

end Basin

/-- A power of ten above every number below `2 ^ n`. -/
def tenAbove (n : Int) : Int := n * 30103 / 100000 + 1

/-- The fewest digits that read back as the double, for a double that is not zero. -/
def shortest (tie : Tie) (m : Magnitude) : Scaled :=
  let top := tenAbove (m.exponent + Nat.log2 m.mantissa + 2)
  m.basin.search tie 24 top

end Downbeat.Decimal
