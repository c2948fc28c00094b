import Downbeat.Decimal.Shortest

/-!
# Layouts of numbers

A number is written with the fewest digits that read back, laid out by a `Layout` : which
numbers are written positionally and which with an exponent, whether a whole number keeps
a `.0`, and how the exponent is spelled. `fixed` writes a number with a given count of
decimal places instead, and rounds its exact value.
-/

namespace Downbeat.Decimal

/-- The decisions of a number format. A number `d.ddd · 10 ^ e` is written positionally
if `least ≤ e < bound`; a bound that is missing does not bound. -/
structure Layout where
  least : Option Int
  bound : Option Int
  /-- Whole numbers written positionally end in `.0`. -/
  keepsPoint : Bool
  /-- The exponent has a sign even if it is positive. -/
  signsExponent : Bool
  tie : Tie

/-- The decimal digits of `n`, at least one. -/
def digitsOf (n : Nat) : List Char := Nat.toDigits 10 n

/-- Digits with a point after the first `n` of them, filled up with zeros as needed; with
no digits after the point it is left out. -/
def pointed (n : Int) (ds : List Char) : List Char :=
  if n ≤ 0 then '0' :: '.' :: (List.replicate (-n).toNat '0' ++ ds)
  else if (ds.length : Int) ≤ n then ds ++ List.replicate (n.toNat - ds.length) '0'
  else ds.take n.toNat ++ '.' :: ds.drop n.toNat

namespace Layout

/-- Whether numbers `d.ddd · 10 ^ e` are written without an exponent. -/
def isPositional (l : Layout) (e : Int) : Bool :=
  l.least.all (· ≤ e) && l.bound.all (e < ·)

/-- The text of an exponent. -/
def exponentText (l : Layout) (e : Int) : List Char :=
  if e < 0 then '-' :: digitsOf (-e).toNat
  else if l.signsExponent then '+' :: digitsOf e.toNat
  else digitsOf e.toNat

/-- The text of `digits · 10 ^ exponent`. -/
def scaledText (l : Layout) (s : Scaled) : List Char :=
  let ds := digitsOf s.digits
  let e := s.exponent + ds.length - 1
  if l.isPositional e then
    pointed (e + 1) ds ++ (if l.keepsPoint && 0 ≤ s.exponent then ['.', '0'] else [])
  else
    pointed 1 ds ++ 'e' :: l.exponentText e

/-- The text of a double that is neither infinite nor NaN. -/
def finiteText (l : Layout) (x : Float) : List Char :=
  let m := Magnitude.ofFloat x
  let size :=
    if m.mantissa = 0 then (if l.keepsPoint then ['0', '.', '0'] else ['0'])
    else l.scaledText (shortest l.tie m)
  if isNegative x then '-' :: size else size

/-- The text of a double. -/
def text (l : Layout) (x : Float) : String :=
  if x.isNaN then "NaN"
  else if x.isInf then (if isNegative x then "-inf" else "inf")
  else String.ofList (l.finiteText x)

end Layout

/-- Numbers in messages and listings : never an exponent, and no point in whole numbers. -/
def plain : Layout :=
  { least := none, bound := none, keepsPoint := false, signsExponent := false, tie := .up }

/-- Numbers in descriptions of values : always a point or an exponent. -/
def descriptive : Layout :=
  { least := some (-4), bound := some 16, keepsPoint := true, signsExponent := false, tie := .up }

/-- Numbers in JSON documents. -/
def json : Layout :=
  { least := some (-5), bound := some 16, keepsPoint := true, signsExponent := true,
    tie := .toEven }

example : plain.text 1e21 = "1000000000000000000000" ∧ plain.text (-0.0) = "-0" := by
  decide +kernel

example : descriptive.text 1e16 = "1e16" ∧ descriptive.text 1e-5 = "1e-5" := by decide +kernel

example : json.text 1e16 = "1e+16" ∧ json.text 1e-5 = "0.00001" ∧ json.text 3 = "3.0" := by
  decide +kernel

/-- The exact value of `x` rounded to `places` decimal places, an exact tie to the even
neighbour. -/
def fixed (places : Nat) (x : Float) : String :=
  if x.isNaN then "NaN"
  else if x.isInf then (if isNegative x then "-inf" else "inf")
  else
    let m := Magnitude.ofFloat x
    let n := roundQuotient .toEven (m.mantissa * powNum 2 m.exponent * Nat.pow 10 places)
      (powDen 2 m.exponent)
    let ds := digitsOf n
    let ds := List.replicate (places + 1 - ds.length) '0' ++ ds
    let size := pointed ((ds.length : Int) - places) ds
    String.ofList (if isNegative x then '-' :: size else size)

example : fixed 2 0.125 = "0.12" ∧ fixed 2 0.375 = "0.38" := by decide +kernel

end Downbeat.Decimal
