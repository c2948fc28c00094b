import Downbeat.Json.StringLiteral

/-!
# Parts that nobody wants

A value under an unknown key is passed over. It has to be JSON, but its nesting has no
bound, its numbers no range and its surrogates no partners. The brackets that are open
stand on a stack, so that a value of any depth is passed in one loop (`Skip.value`), of
which every turn takes at least one character.
-/

namespace Downbeat.Json.Skip

open Reader

/-- An open bracket. -/
inductive Bracket where
  | list
  | object
deriving DecidableEq, Repr

/-- The character that closes a bracket. -/
def Bracket.closing : Bracket → Char
  | list => ']'
  | object => '\x7d'

/-- The fault of a text that ends inside a bracket. -/
def Bracket.unfinished : Bracket → Fault
  | list => .unfinished .list
  | object => .unfinished .object

/-- The fault of a value inside a bracket that nothing proper follows. -/
def Bracket.wantNext : Bracket → Fault
  | list => .wantCommaOrBracket
  | object => .wantCommaOrBrace

/-- Digits, of which there has to be one. -/
def digits : Reader Unit := do
  match ← takeDigits with
  | [] => fail .badNumber
  | _ => pure ()

/-- An exponent, if there is one. -/
def exponent : Reader Unit := do
  match ← peek? with
  | some 'e' | some 'E' =>
    drop
    match ← peek? with
    | some '+' | some '-' => drop
    | _ => pure ()
    digits
  | _ => pure ()

/-- A number from its first digit on. -/
def unsigned : Reader Unit := do
  match ← peek? with
  | some '0' =>
    drop
    match ← peek? with
    | some c => if c.isDigit then fail .badNumber else pure ()
    | none => pure ()
  | _ => digits
  match ← peek? with
  | some '.' =>
    drop
    digits
  | _ => pure ()
  exponent

/-- The key of a member of an object and the colon behind it. -/
def key : Reader Unit := do
  match ← peekSolid? with
  | some '"' => drop
  | some _ => fail .keyNotString
  | none => fail (.unfinished .object)
  StringLiteral.skip
  colon

/-- A value without brackets, or an opening bracket. -/
def start : Reader (Option Bracket) := do
  match ← peekSolid? with
  | none => fail (.unfinished .value)
  | some 'n' => drop; word "ull".toList; pure none
  | some 't' => drop; word "rue".toList; pure none
  | some 'f' => drop; word "alse".toList; pure none
  | some '-' => drop; unsigned; pure none
  | some '"' => drop; StringLiteral.skip; pure none
  | some '[' => drop; pure (some .list)
  | some '\x7b' => drop; pure (some .object)
  | some c => if c.isDigit then do unsigned; pure none else fail .wantValue

/-- After a complete value : closes the brackets that close here and passes a comma. What
is left are the brackets around the next value, none if there is no next value. -/
def settle : List Bracket → Reader (List Bracket)
  | [] => pure []
  | b :: outer => do
    match ← peekSolid? with
    | none => fail b.unfinished
    | some c =>
      if c = ',' then do drop; pure (b :: outer)
      else if c = b.closing then do drop; settle outer
      else fail b.wantNext

/-- After an opening bracket. -/
def enter (b : Bracket) (outer : List Bracket) : Reader (List Bracket) := do
  match ← peekSolid? with
  | none => fail b.unfinished
  | some c => if c = b.closing then do drop; settle outer else pure (b :: outer)

/-- Passes over a value inside the brackets `outer` and over all that closes them. -/
def values : (fuel : Nat) → List Bracket → Reader Unit
  | 0, _ => fail (.unfinished .value)
  | fuel + 1, outer => do
    let open? ← start
    let left ← match open? with
      | none => settle outer
      | some b => enter b outer
    match left with
    | [] => pure ()
    | .list :: _ => values fuel left
    | .object :: _ => do
      key
      values fuel left

/-- Passes over a value. -/
def value : Reader Unit := do
  values (← bound) []

end Downbeat.Json.Skip
