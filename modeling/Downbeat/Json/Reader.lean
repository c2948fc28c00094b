import Downbeat.Json.Fault

/-!
# Readers

A reader takes a value off the front of a text, or ends at a fault. It knows a number above
the length of the text, which bounds its loops (`Reader.bound`). This module has the readers
that every other one is built from : a look at the next character (`Reader.peek?`), blanks,
words, and runs of digits.
-/

namespace Downbeat.Json

/-- A reader of values of type `α`. -/
abbrev Reader (α : Type) := ReaderT Nat (StateT (List Char) (Except Fault)) α

/-- The characters between the parts of a document. -/
def isBlank (c : Char) : Bool := c = ' ' || c = '\n' || c = '\t' || c = '\r'

namespace Reader

/-- Ends reading at a fault. -/
def fail {α : Type} (f : Fault) : Reader α := fun _ _ => .error f

/-- The next character, which is left in place. -/
def peek? : Reader (Option Char) := fun _ cs => .ok (cs.head?, cs)

/-- Drops the next character. -/
def drop : Reader Unit := fun _ cs => .ok ((), cs.tail)

/-- Takes the next character. -/
def next? : Reader (Option Char) := fun _ cs => .ok (cs.head?, cs.tail)

/-- Drops blanks. -/
def skipBlanks : Reader Unit := fun _ cs => .ok ((), cs.dropWhile isBlank)

/-- The next character that is not blank, which is left in place. -/
def peekSolid? : Reader (Option Char) := do
  skipBlanks
  peek?

/-- Takes the digits at the front. -/
def takeDigits : Reader (List Char) := fun _ cs =>
  .ok (cs.takeWhile Char.isDigit, cs.dropWhile Char.isDigit)

/-- A number above the length of the text. A loop whose every turn takes a character off the
text has fewer turns. -/
def bound : Reader Nat := fun n cs => .ok (n, cs)

/-- Takes the characters of a word, each of which has to be there. -/
def word : List Char → Reader Unit
  | [] => pure ()
  | c :: rest => do
    match ← next? with
    | none => fail (.unfinished .value)
    | some d => if d = c then word rest else fail .wantIdent

/-- The colon after a key. -/
def colon : Reader Unit := do
  match ← peekSolid? with
  | some ':' => drop
  | some _ => fail .wantColon
  | none => fail (.unfinished .object)

end Reader

end Downbeat.Json
