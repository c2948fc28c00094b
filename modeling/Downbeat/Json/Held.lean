import Downbeat.Json.Typed

/-!
# Values held back

Where the type of a value depends on a tag that may come later, the parts of the value are
held back as `Held` values until the tag is known, and are then taken as what they turn out
to be.
-/

namespace Downbeat.Json

/-- A value of which only the form is known. -/
inductive Held where
  | null
  | boolean (b : Bool)
  | number (n : Number)
  | text (s : String)
  | list (items : List Held)
  | object (members : List (String × Held))

namespace Held

open Reader

/-- How a held value is reported where something else is wanted. -/
def found : Held → Found
  | null => .null
  | boolean b => .boolean b
  | number n => n.found
  | text s => .text s
  | list _ => .sequence
  | object _ => .map

/-- The members up to the end of an object. -/
def members (item : Reader Held) : (fuel : Nat) → (first : Bool) → Reader (List (String × Held))
  | 0, _ => fail (.unfinished .object)
  | fuel + 1, first => do
    if ← hasMember first then
      let key ← StringLiteral.read
      colon
      let x ← item
      let rest ← members item fuel false
      pure ((key, x) :: rest)
    else pure []

/-- A value, with readers for what begins with either bracket. -/
def readWith (ifList ifObject : Reader Held) : Reader Held :=
  onSolid fun c =>
    if c = 'n' then do drop; word "ull".toList; pure null
    else if c = 't' then do drop; word "rue".toList; pure (boolean true)
    else if c = 'f' then do drop; word "alse".toList; pure (boolean false)
    else if c = '"' then do drop; text <$> StringLiteral.read
    else if c = '-' || c.isDigit then number <$> Number.read
    else if c = '[' then ifList
    else if c = '\x7b' then ifObject
    else fail .wantValue

/-- Any value. -/
def read : Nested Held
  | 0 => readWith (fail .tooDeep) (fail .tooDeep)
  | depth + 1 =>
    readWith
      (do
        drop
        let xs ← elements (read depth) (← bound) true
        closeList
        pure (list xs))
      (do
        drop
        let ms ← members (read depth) (← bound) true
        closeObject
        pure (object ms))

/-- A held string. -/
def asText : Held → Except Fault String
  | text s => .ok s
  | x => .error (.wrongType x.found "a string")

/-- A held number. -/
def asFloat : Held → Except Fault Float
  | number n => .ok n.toFloat
  | x => .error (.wrongType x.found "f64")

end Held

end Downbeat.Json
