import Downbeat.Text.Extending

/-!
# Quoted text

Where a message or a description shows a piece of text, it shows it in double quotes on one
line : quotes, backslashes and line controls are escaped by a backslash, and what cannot
be shown alone is written as `\u` with the code point in braces.
-/

namespace Downbeat.Text

/-- The code point of a character in braces. -/
def codePoint (c : Char) : List Char :=
  '\\' :: 'u' :: '\x7b' :: (Nat.toDigits 16 c.toNat ++ ['\x7d'])

/-- A character as it stands in quoted text. -/
def quotedChar (c : Char) : List Char :=
  if c = '\x00' then ['\\', '0']
  else if c = '\t' then ['\\', 't']
  else if c = '\r' then ['\\', 'r']
  else if c = '\n' then ['\\', 'n']
  else if c = '"' then ['\\', '"']
  else if c = '\\' then ['\\', '\\']
  else if isExtending c || !isPrintable c then codePoint c
  else [c]

/-- The text in quotes. -/
def quoted (s : String) : String :=
  String.ofList ('"' :: (s.toList.flatMap quotedChar ++ ['"']))

example : quoted "a\"b\n" = "\"a\\\"b\\n\"" := by decide +kernel

end Downbeat.Text
