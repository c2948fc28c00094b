import Downbeat.Json.Reader

/-!
# Strings in documents

`StringLiteral.read` takes a string from behind its opening quote to behind its closing
quote. A character beyond the basic plane may be escaped as a pair of surrogates; a
surrogate that has no partner is a fault. `StringLiteral.skip` passes over a string in a
part of a document that nobody wants, and does not look for partners.
-/

namespace Downbeat.Json.StringLiteral

/-- The value of a hexadecimal digit. -/
def hexValue? (c : Char) : Option Nat :=
  if '0' ≤ c ∧ c ≤ '9' then some (c.toNat - '0'.toNat)
  else if 'a' ≤ c ∧ c ≤ 'f' then some (c.toNat - 'a'.toNat + 10)
  else if 'A' ≤ c ∧ c ≤ 'F' then some (c.toNat - 'A'.toNat + 10)
  else none

/-- The value of four hexadecimal digits. -/
def hex4? (a b c d : Char) : Option Nat := do
  let a ← hexValue? a
  let b ← hexValue? b
  let c ← hexValue? c
  let d ← hexValue? d
  return ((a * 16 + b) * 16 + c) * 16 + d

/-- The bytes that characters take in UTF-8. -/
def bytes (cs : List Char) : Nat := cs.foldl (fun n c => n + c.utf8Size) 0

/-- Takes four hexadecimal digits. The text is unfinished only if it has not even four
bytes left. -/
def takeHex4 (cs : List Char) : Except Fault (Nat × List Char) :=
  match cs with
  | a :: b :: c :: d :: rest =>
    match hex4? a b c d with
    | some n => .ok (n, rest)
    | none => .error .badEscape
  | _ => .error (if 4 ≤ bytes cs then .badEscape else .unfinished .string)

/-- Whether a code unit is the first of a pair. -/
def isLeading (n : Nat) : Bool := 0xd800 ≤ n && n ≤ 0xdbff

/-- Whether a code unit is the second of a pair. -/
def isTrailing (n : Nat) : Bool := 0xdc00 ≤ n && n ≤ 0xdfff

/-- The character of a pair of code units. -/
def joined (high low : Nat) : Char :=
  Char.ofNat (0x10000 + (high - 0xd800) * 0x400 + (low - 0xdc00))

/-- The character that `\u` begins, from behind the `u`. -/
def takeUnit (cs : List Char) : Except Fault (Char × List Char) := do
  let (n, rest) ← takeHex4 cs
  if isTrailing n then .error .loneSurrogate
  else if !isLeading n then .ok (Char.ofNat n, rest)
  else
    match rest with
    | [] | ['\\'] => .error (.unfinished .string)
    | '\\' :: 'u' :: rest =>
      let (m, rest) ← takeHex4 rest
      if isTrailing m then .ok (joined n m, rest) else .error .loneSurrogate
    | _ => .error .halfSurrogatePair

/-- The character that one letter behind a backslash stands for. -/
def escaped? : Char → Option Char
  | '"' => some '"'
  | '\\' => some '\\'
  | '/' => some '/'
  | 'b' => some '\x08'
  | 'f' => some '\x0c'
  | 'n' => some '\n'
  | 'r' => some '\r'
  | 't' => some '\t'
  | _ => none

/-- The character behind a backslash, as `unit` takes it if it is given by its number. -/
def takeEscape (unit : List Char → Except Fault (Char × List Char)) :
    List Char → Except Fault (Char × List Char)
  | [] => .error (.unfinished .string)
  | 'u' :: rest => unit rest
  | c :: rest =>
    match escaped? c with
    | some d => .ok (d, rest)
    | none => .error .badEscape

/-- The characters up to the closing quote. Every step takes a character, so `fuel` need
not be more than the length of the text. -/
def body (unit : List Char → Except Fault (Char × List Char)) :
    (fuel : Nat) → List Char → Except Fault (List Char × List Char)
  | 0, _ | _, [] => .error (.unfinished .string)
  | _, '"' :: rest => .ok ([], rest)
  | fuel + 1, '\\' :: rest => do
    let (c, rest) ← takeEscape unit rest
    let (cs, rest) ← body unit fuel rest
    .ok (c :: cs, rest)
  | fuel + 1, c :: rest =>
    if c.toNat < 0x20 then .error .controlCharacter
    else do
      let (cs, rest) ← body unit fuel rest
      .ok (c :: cs, rest)

/-- A string, from behind its opening quote. -/
def read : Reader String := fun n cs => do
  let (s, rest) ← body takeUnit n cs
  .ok (String.ofList s, rest)

/-- A code unit that is not looked at any closer. -/
def passUnit (cs : List Char) : Except Fault (Char × List Char) := do
  let (_, rest) ← takeHex4 cs
  .ok (' ', rest)

/-- Passes over a string, from behind its opening quote. -/
def skip : Reader Unit := fun n cs => do
  let (_, rest) ← body passUnit n cs
  .ok ((), rest)

end Downbeat.Json.StringLiteral
