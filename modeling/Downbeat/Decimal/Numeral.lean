/-!
# Numerals

`Numeral.read?` reads a number as it is given on a command line : decimal digits with an
optional sign, point and exponent, or one of the names of infinity and NaN. The double is
the one nearest to the number.
-/

namespace Downbeat.Decimal.Numeral

/-- Splits a sign off; whether it is a minus, and the rest. -/
def sign : List Char → Bool × List Char
  | '-' :: rest => (true, rest)
  | '+' :: rest => (false, rest)
  | cs => (false, cs)

/-- The number that digits stand for, behind the digits of `n`. -/
def ofDigits (n : Nat) (ds : List Char) : Nat :=
  ds.foldl (fun n c => n * 10 + (c.toNat - '0'.toNat)) n

/-- The exponent that the end of a numeral stands for, if it is one. -/
def exponent? : List Char → Option Int
  | [] => some 0
  | c :: rest =>
    if c = 'e' || c = 'E' then
      let (minus, ds) := sign rest
      if ds.isEmpty || !ds.all Char.isDigit then none
      else if minus then some (-(ofDigits 0 ds : Int))
      else some (ofDigits 0 ds)
    else none

/-- The double nearest to `m · 10 ^ e`. Beyond the powers of ten that doubles reach there
is nothing to compute. -/
def nearest (m : Nat) (e : Int) : Float :=
  let size := e + (Nat.toDigits 10 m).length
  if m = 0 || size < -400 then 0
  else if 400 < size then 1 / 0
  else OfScientific.ofScientific m (e < 0) e.natAbs

/-- The number that unsigned digits, point and exponent stand for. -/
def finite? (cs : List Char) : Option Float :=
  let whole := cs.takeWhile Char.isDigit
  let rest := cs.dropWhile Char.isDigit
  let (places, rest) := match rest with
    | '.' :: rest => (rest.takeWhile Char.isDigit, rest.dropWhile Char.isDigit)
    | rest => ([], rest)
  if whole.isEmpty && places.isEmpty then none
  else (exponent? rest).map fun e => nearest (ofDigits 0 (whole ++ places)) (e - places.length)

/-- The number that an unsigned numeral or name stands for. -/
def unsigned? (cs : List Char) : Option Float :=
  let name := String.ofList (cs.map Char.toLower)
  if name = "nan" then some (0 / 0)
  else if name = "inf" || name = "infinity" then some (1 / 0)
  else finite? cs

/-- The number that a numeral stands for. -/
def read? (s : String) : Option Float :=
  let (minus, cs) := sign s.toList
  (unsigned? cs).map fun x => if minus then -x else x

end Downbeat.Decimal.Numeral
