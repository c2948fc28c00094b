import Downbeat.Decimal.Layout

/-!
# Writing documents

A document is built as a `Document` and written on one line (`Document.compact`) or with one
member or element a line, indented by two blanks for each open bracket
(`Document.pretty`). A number that is infinite or NaN is written as `null`.
-/

namespace Downbeat.Json

/-- A document to be written. -/
inductive Document where
  | null
  | natural (n : Nat)
  | float (x : Float)
  | text (s : String)
  | list (items : List Document)
  | object (members : List (String × Document))

/-- A character as it stands in a string. -/
def writtenChar (c : Char) : List Char :=
  if c = '"' then ['\\', '"']
  else if c = '\\' then ['\\', '\\']
  else if c = '\x08' then ['\\', 'b']
  else if c = '\x0c' then ['\\', 'f']
  else if c = '\n' then ['\\', 'n']
  else if c = '\r' then ['\\', 'r']
  else if c = '\t' then ['\\', 't']
  else if c.toNat < 0x20 then
    '\\' :: 'u' :: '0' :: '0' :: [Nat.digitChar (c.toNat / 16), Nat.digitChar (c.toNat % 16)]
  else [c]

/-- A string with its quotes. -/
def writtenText (s : String) : List Char :=
  '"' :: (s.toList.flatMap writtenChar ++ ['"'])

/-- A number. -/
def writtenFloat (x : Float) : List Char :=
  if x.isNaN || x.isInf then "null".toList else Decimal.json.finiteText x

namespace Document

/-- A value that may be missing. -/
def ofOption {α : Type} (write : α → Document) : Option α → Document
  | none => null
  | some x => write x

/-- A line break and the indentation of `level` open brackets. -/
def newline (level : Nat) : List Char := '\n' :: List.replicate (2 * level) ' '

/-- Joins texts by a comma and what follows it. -/
def joined (after : List Char) : List (List Char) → List Char
  | [] => []
  | [x] => x
  | x :: y :: rest => x ++ ',' :: (after ++ joined after (y :: rest))

mutual

/-- The text on one line. -/
def compactChars : Document → List Char
  | null => "null".toList
  | natural n => Nat.toDigits 10 n
  | float x => writtenFloat x
  | text s => writtenText s
  | list items => '[' :: (joined [] (compactItems items) ++ [']'])
  | object members => '\x7b' :: (joined [] (compactMembers members) ++ ['\x7d'])

/-- The texts of elements on one line. -/
def compactItems : List Document → List (List Char)
  | [] => []
  | x :: rest => compactChars x :: compactItems rest

/-- The texts of members on one line. -/
def compactMembers : List (String × Document) → List (List Char)
  | [] => []
  | (key, x) :: rest => (writtenText key ++ ':' :: compactChars x) :: compactMembers rest

end

/-- The contents of a bracket, a line each. -/
def spread (level : Nat) (opening closing : Char) (texts : List (List Char)) : List Char :=
  if texts.isEmpty then [opening, closing]
  else
    opening :: (newline (level + 1) ++ joined (newline (level + 1)) texts ++ newline level ++
      [closing])

mutual

/-- The text on several lines inside `level` open brackets. -/
def prettyChars (level : Nat) : Document → List Char
  | null => "null".toList
  | natural n => Nat.toDigits 10 n
  | float x => writtenFloat x
  | text s => writtenText s
  | list items => spread level '[' ']' (prettyItems (level + 1) items)
  | object members => spread level '\x7b' '\x7d' (prettyMembers (level + 1) members)

/-- The texts of elements inside `level` open brackets. -/
def prettyItems (level : Nat) : List Document → List (List Char)
  | [] => []
  | x :: rest => prettyChars level x :: prettyItems level rest

/-- The texts of members inside `level` open brackets. -/
def prettyMembers (level : Nat) : List (String × Document) → List (List Char)
  | [] => []
  | (key, x) :: rest =>
    (writtenText key ++ ':' :: ' ' :: prettyChars level x) :: prettyMembers level rest

end

/-- The text on one line. -/
def compact (d : Document) : String := String.ofList d.compactChars

/-- The text on several lines. -/
def pretty (d : Document) : String := String.ofList (d.prettyChars 0)

end Document

end Downbeat.Json
