import Downbeat.Json.Reader

/-!
# Numbers in documents

The digits of a number are gathered into a whole number below `2 ^ 64`; digits that do not
fit are dropped, and those before the point then count into the exponent. A number without
point and exponent that fits is an integer. Any other is a double : the gathered digits,
multiplied or divided by a power of ten, with one rounding for each of these steps
(`Number.assemble`).
-/

namespace Downbeat.Json

/-- A number of a document. -/
inductive Number where
  | integer (n : Int)
  | floating (x : Float)

namespace Number

/-- The double of a number. -/
def toFloat : Number → Float
  | integer n => Float.ofInt n
  | floating x => x

/-- How a number is reported where something else is wanted. -/
def found : Number → Found
  | integer n => .integer n
  | floating x => .floating x

/-- The value of a digit. -/
def digit (c : Char) : Nat := c.toNat - '0'.toNat

/-- The bound of what is gathered. -/
def bound : Nat := Nat.pow 2 64

/-- Gathers digits as long as they fit : what is gathered, how many digits that took, and
the digits that are left. -/
def gather (m : Nat) : List Char → Nat × Nat × List Char
  | [] => (m, 0, [])
  | c :: rest =>
    let m' := m * 10 + digit c
    if m' < bound then
      let (n, taken, left) := gather m' rest
      (n, taken + 1, left)
    else (m, 0, c :: rest)

/-- The double nearest to `10 ^ e`. -/
def tenTo (e : Nat) : Float := OfScientific.ofScientific 1 false e

/-- The double `m · 10 ^ e`, in steps of at most 308 powers. A missing result is too large
for a double. -/
def scale (m : Float) : Nat → Int → Option Float
  | 0, _ => some m
  | fuel + 1, e =>
    if e.natAbs ≤ 308 then
      if 0 ≤ e then
        let x := m * tenTo e.natAbs
        if x.isInf then none else some x
      else some (m / tenTo e.natAbs)
    else if m == 0 then some m
    else if 0 ≤ e then none
    else scale (m / tenTo 308) fuel (e + 308)

/-- The double with sign, gathered digits and exponent. Four steps of 308 powers take any
gathered number to zero. -/
def assemble (negative : Bool) (m : Nat) (e : Int) : Reader Float :=
  match scale (Float.ofNat m) 4 e with
  | none => Reader.fail .numberOutOfRange
  | some x => pure (if negative then -x else x)

/-- The largest exponent that is told from all larger ones. -/
def exponentBound : Nat := Nat.pow 2 31

/-- Gathers the digits of an exponent, unless they reach the bound. -/
def gatherExponent (n : Nat) : List Char → Option Nat
  | [] => some n
  | c :: rest =>
    let n' := n * 10 + digit c
    if n' < exponentBound then gatherExponent n' rest else none

/-- The rest of a number from its exponent sign on. -/
def readExponent (negative : Bool) (m : Nat) (e : Int) : Reader Float := do
  Reader.drop
  let minus ← (do
    match ← Reader.peek? with
    | some '+' => Reader.drop; pure false
    | some '-' => Reader.drop; pure true
    | _ => pure false)
  match ← Reader.peek? with
  | none => Reader.fail (.unfinished .value)
  | some c =>
    if !c.isDigit then Reader.fail .badNumber
    else
      let ds ← Reader.takeDigits
      match gatherExponent 0 ds with
      | some n => assemble negative m (if minus then e - n else e + n)
      | none =>
        if m ≠ 0 && !minus then Reader.fail .numberOutOfRange
        else pure (if negative then -0.0 else 0.0)

/-- The rest of a number after its last digit before the exponent. -/
def readTail (negative : Bool) (m : Nat) (e : Int) : Reader Float := do
  match ← Reader.peek? with
  | some 'e' | some 'E' => readExponent negative m e
  | _ => assemble negative m e

/-- The rest of a number from its point on. -/
def readFraction (negative : Bool) (m : Nat) (e : Int) : Reader Float := do
  Reader.drop
  match ← Reader.takeDigits with
  | [] =>
    match ← Reader.peek? with
    | some _ => Reader.fail .badNumber
    | none => Reader.fail (.unfinished .value)
  | ds =>
    let (m, taken, _) := gather m ds
    readTail negative m (e - taken)

/-- The rest of a number after its digits before the point, of which `extra` did not fit. -/
def readRest (negative : Bool) (m : Nat) (extra : Nat) : Reader Number := do
  match ← Reader.peek? with
  | some '.' => floating <$> readFraction negative m extra
  | some 'e' | some 'E' => floating <$> readExponent negative m extra
  | _ =>
    if extra ≠ 0 then floating <$> assemble negative m extra
    else if !negative then pure (integer m)
    else if 0 < m && m ≤ Nat.pow 2 63 then pure (integer (-(m : Int)))
    else pure (floating (-(Float.ofNat m)))

/-- A number from its first digit on. -/
def readUnsigned (negative : Bool) : Reader Number := do
  match ← Reader.peek? with
  | none => Reader.fail (.unfinished .value)
  | some '0' =>
    Reader.drop
    match ← Reader.peek? with
    | some c => if c.isDigit then Reader.fail .badNumber else readRest negative 0 0
    | none => readRest negative 0 0
  | some c =>
    if !c.isDigit then Reader.fail .badNumber
    else
      let ds ← Reader.takeDigits
      let (m, _, left) := gather 0 ds
      readRest negative m left.length

/-- A number. -/
def read : Reader Number := do
  match ← Reader.peek? with
  | some '-' =>
    Reader.drop
    readUnsigned true
  | _ => readUnsigned false

end Number

end Downbeat.Json
