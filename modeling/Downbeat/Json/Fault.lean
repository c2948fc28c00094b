import Downbeat.Decimal.Layout
import Downbeat.Text.Quoted

/-!
# What can be wrong with a document

A document is read from the left, each part as the type that is wanted there, and reading
ends at the first fault. A fault is one of three kinds (`Fault.category`) : the text stops
too early, it is not JSON, or it is JSON of the wrong shape. Each fault has its wording in
`Fault.message`.
-/

namespace Downbeat.Json

/-- What a text that stops too early was in the middle of. -/
inductive Part where
  | list
  | object
  | string
  | value
deriving DecidableEq, Repr

/-- What stands in a document where something else is wanted. -/
inductive Found where
  | null
  | boolean (b : Bool)
  | integer (n : Int)
  | floating (x : Float)
  | text (s : String)
  | sequence
  | map
  /-- A bare name where a name with contents is wanted. -/
  | unitVariant

/-- A reason for which a document cannot be read. -/
inductive Fault where
  | unfinished (part : Part)
  | wantColon
  | wantCommaOrBracket
  | wantCommaOrBrace
  | wantIdent
  | wantValue
  | badEscape
  | badNumber
  | numberOutOfRange
  | controlCharacter
  | keyNotString
  | loneSurrogate
  | trailingComma
  | trailingCharacters
  | halfSurrogatePair
  | tooDeep
  | wrongType (found : Found) (wanted : String)
  | wrongValue (found : Found) (wanted : String)
  | wrongLength (length : Nat) (wanted : String)
  | missingField (name : String)
  | repeatedField (name : String)
  | unknownVariant (name : String) (known : List String)

/-- The kinds of faults. -/
inductive Category where
  | ended
  | malformed
  | mismatched
deriving DecidableEq, Repr

/-- The kind of a fault. -/
def Fault.category : Fault → Category
  | unfinished _ => .ended
  | wantColon | wantCommaOrBracket | wantCommaOrBrace | wantIdent | wantValue | badEscape
  | badNumber | numberOutOfRange | controlCharacter | keyNotString | loneSurrogate
  | trailingComma | trailingCharacters | halfSurrogatePair | tooDeep => .malformed
  | wrongType .. | wrongValue .. | wrongLength .. | missingField _ | repeatedField _
  | unknownVariant .. => .mismatched

/-- The name of a part. -/
def Part.name : Part → String
  | list => "a list"
  | object => "an object"
  | string => "a string"
  | value => "a value"

/-- A name between backticks, written by their code point. -/
def ticked (s : String) : String := "\x60" ++ s ++ "\x60"

/-- The wording for what was found. -/
def Found.name : Found → String
  | null => "null"
  | boolean b => "boolean " ++ ticked (if b then "true" else "false")
  | integer n => "integer " ++ ticked ((if n < 0 then "-" else "") ++ Nat.repr n.natAbs)
  | floating x => "floating point " ++ ticked (Decimal.json.text x)
  | text s => "string " ++ Text.quoted s
  | sequence => "sequence"
  | map => "map"
  | unitVariant => "unit variant"

/-- The wording for a choice between names, of which there are at least two. -/
def oneOf (names : List String) : String :=
  "one of " ++ String.intercalate ", " (names.map ticked)

/-- The wording of a fault. -/
def Fault.message : Fault → String
  | unfinished part => "EOF while parsing " ++ part.name
  | wantColon => "expected " ++ ticked ":"
  | wantCommaOrBracket => "expected " ++ ticked "," ++ " or " ++ ticked "]"
  | wantCommaOrBrace => "expected " ++ ticked "," ++ " or " ++ ticked "\x7d"
  | wantIdent => "expected ident"
  | wantValue => "expected value"
  | badEscape => "invalid escape"
  | badNumber => "invalid number"
  | numberOutOfRange => "number out of range"
  | controlCharacter => "control character (\\u0000-\\u001F) found while parsing a string"
  | keyNotString => "key must be a string"
  | loneSurrogate => "lone leading surrogate in hex escape"
  | trailingComma => "trailing comma"
  | trailingCharacters => "trailing characters"
  | halfSurrogatePair => "unexpected end of hex escape"
  | tooDeep => "recursion limit exceeded"
  | wrongType found wanted => "invalid type: " ++ found.name ++ ", expected " ++ wanted
  | wrongValue found wanted => "invalid value: " ++ found.name ++ ", expected " ++ wanted
  | wrongLength n wanted => "invalid length " ++ Nat.repr n ++ ", expected " ++ wanted
  | missingField name => "missing field " ++ ticked name
  | repeatedField name => "duplicate field " ++ ticked name
  | unknownVariant name known =>
    "unknown variant " ++ ticked name ++ ", expected " ++ oneOf known

end Downbeat.Json
