/-!
# Doubles as whole numbers

A finite double is `± m · 2 ^ q` with a whole `m` below `2 ^ 53`. `Magnitude.ofFloat`
reads `m` and `q` off the bits, so that everything said about decimal digits is said in
whole numbers and is exact.
-/

namespace Downbeat.Decimal

/-- The size `mantissa · 2 ^ exponent` of a finite double. -/
structure Magnitude where
  mantissa : Nat
  exponent : Int
  /-- The double below is only half as far away as the double above. -/
  leansDown : Bool
deriving DecidableEq, Repr

/-- The sign bit. -/
def isNegative (x : Float) : Bool := x.toBits >>> 63 == 1

/-- The size of a double, read off its bits. For infinities and for NaN it has no
meaning. -/
def Magnitude.ofFloat (x : Float) : Magnitude :=
  let fraction := (x.toBits &&& 0xfffffffffffff).toNat
  let exponent := ((x.toBits >>> 52) &&& 0x7ff).toNat
  if exponent = 0 then ⟨fraction, -1074, false⟩
  else ⟨Nat.pow 2 52 + fraction, (exponent : Int) - 1075, fraction == 0 && 1 < exponent⟩

/-- How a tie between two neighbours is settled. -/
inductive Tie where
  | toEven
  | up
deriving DecidableEq, Repr

/-- Whether a tie between `n` and `n + 1` goes to `n + 1`. -/
def Tie.goesUp (tie : Tie) (n : Nat) : Bool :=
  match tie with
  | .toEven => n % 2 == 1
  | .up => true

/-- The quotient `num / den` rounded to a nearest whole number. -/
def roundQuotient (tie : Tie) (num den : Nat) : Nat :=
  let n := num / den
  let twice := 2 * (num % den)
  if den < twice || (twice == den && tie.goesUp n) then n + 1 else n

theorem roundQuotient_eq_or (tie : Tie) (num den : Nat) :
    roundQuotient tie num den = num / den ∨ roundQuotient tie num den = num / den + 1 := by
  unfold roundQuotient
  dsimp only
  split
  · exact Or.inr rfl
  · exact Or.inl rfl

/-- `b ^ e` for `e` not negative, and `1` otherwise : the numerator of `b ^ e`. -/
def powNum (b : Nat) (e : Int) : Nat := Nat.pow b e.toNat

/-- The denominator of `b ^ e`. -/
def powDen (b : Nat) (e : Int) : Nat := Nat.pow b (-e).toNat

end Downbeat.Decimal
