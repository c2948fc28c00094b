import Downbeat.Json.Number
import Downbeat.Json.Skip

/-!
# Reading values of a wanted type

A document is read as the type that is wanted. Records may be written as objects, whose
unknown keys are passed over and whose known keys come at most once, or as lists of their
fields in order (`Record.read`). At most 127 brackets may be open at a time; a reader that
opens some is told how many more it may open.
-/

namespace Downbeat.Json

/-- A reader that may open a given number of brackets. -/
abbrev Nested (α : Type) := Nat → Reader α

namespace Reader

variable {α : Type}

/-- Reports what stands at the front where `wanted` is wanted. -/
def mismatch (wanted : String) : Reader α := do
  match ← peek? with
  | some 'n' => drop; word "ull".toList; fail (.wrongType .null wanted)
  | some 't' => drop; word "rue".toList; fail (.wrongType (.boolean true) wanted)
  | some 'f' => drop; word "alse".toList; fail (.wrongType (.boolean false) wanted)
  | some '"' => do
    drop
    let s ← StringLiteral.read
    fail (.wrongType (.text s) wanted)
  | some '[' => fail (.wrongType .sequence wanted)
  | some '\x7b' => fail (.wrongType .map wanted)
  | some c =>
    if c = '-' || c.isDigit then do
      let n ← Number.read
      fail (.wrongType n.found wanted)
    else fail .wantValue
  | none => fail .wantValue

/-- Goes on by the first character that is not blank. -/
def onSolid (go : Char → Reader α) : Reader α := do
  match ← peekSolid? with
  | some c => go c
  | none => fail (.unfinished .value)

/-- A string, reported as `wanted` where there is none. -/
def textAs (wanted : String) : Reader String :=
  onSolid fun c =>
    if c = '"' then do
      drop
      StringLiteral.read
    else mismatch wanted

/-- A string. -/
def text : Reader String := textAs "a string"

/-- A number, reported as `wanted` where there is none. -/
def numberAs (wanted : String) : Reader Number :=
  onSolid fun c => if c = '-' || c.isDigit then Number.read else mismatch wanted

/-- A double. -/
def float : Reader Float := do
  return (← numberAs "f64").toFloat

/-- A whole number below `bound`, reported as `wanted` where there is none. -/
def naturalAs (wanted : String) (bound : Nat) : Reader Nat := do
  match ← numberAs wanted with
  | .integer n =>
    if 0 ≤ n ∧ n < bound then pure n.toNat else fail (.wrongValue (.integer n) wanted)
  | .floating x => fail (.wrongType (.floating x) wanted)

/-- The word `null`. -/
def unit : Reader Unit :=
  onSolid fun c =>
    if c = 'n' then do
      drop
      word "ull".toList
    else mismatch "unit"

/-- A value that may be `null` instead. -/
def optional (item : Reader α) : Reader (Option α) := do
  match ← peekSolid? with
  | some 'n' => drop; word "ull".toList; pure none
  | _ => some <$> item

/-! ## Lists and objects -/

/-- Inside a list : whether there is another element. -/
def hasElement (first : Bool) : Reader Bool := do
  match ← peekSolid? with
  | none => fail (.unfinished .list)
  | some c =>
    if c = ']' then pure false
    else if first then pure true
    else if c = ',' then
      drop
      match ← peekSolid? with
      | some ']' => fail .trailingComma
      | some _ => pure true
      | none => fail (.unfinished .value)
    else fail .wantCommaOrBracket

/-- Inside an object : whether there is another member. Its opening quote is taken. -/
def hasMember (first : Bool) : Reader Bool := do
  match ← peekSolid? with
  | none => fail (.unfinished .object)
  | some c =>
    if c = '\x7d' then pure false
    else if first then
      if c = '"' then do drop; pure true else fail .keyNotString
    else if c = ',' then
      drop
      match ← peekSolid? with
      | some '"' => drop; pure true
      | some '\x7d' => fail .trailingComma
      | some _ => fail .keyNotString
      | none => fail (.unfinished .value)
    else fail .wantCommaOrBrace

/-- The end of a list. -/
def closeList : Reader Unit := do
  match ← peekSolid? with
  | some ']' => drop
  | some ',' =>
    drop
    match ← peekSolid? with
    | some ']' => fail .trailingComma
    | _ => fail .trailingCharacters
  | some _ => fail .trailingCharacters
  | none => fail (.unfinished .list)

/-- The end of an object. -/
def closeObject : Reader Unit := do
  match ← peekSolid? with
  | some '\x7d' => drop
  | some ',' => fail .trailingComma
  | some _ => fail .trailingCharacters
  | none => fail (.unfinished .object)

/-- The elements up to the end of a list. Each takes at least one character. -/
def elements (item : Reader α) : (fuel : Nat) → (first : Bool) → Reader (List α)
  | 0, _ => fail (.unfinished .list)
  | fuel + 1, first => do
    if ← hasElement first then
      let x ← item
      let xs ← elements item fuel false
      pure (x :: xs)
    else pure []

/-- A list. -/
def list (item : Nested α) : Nested (List α) := fun depth =>
  onSolid fun c =>
    if c = '[' then
      match depth with
      | 0 => fail .tooDeep
      | depth + 1 => do
        drop
        let xs ← elements (item depth) (← bound) true
        closeList
        pure xs
    else mismatch "a sequence"

/-! ## Choices -/

/-- A name out of a list of names. -/
def name (known : List (String × α)) : Reader α := do
  let s ← textAs "variant identifier"
  match known.find? (·.1 == s) with
  | some (_, x) => pure x
  | none => fail (.unknownVariant s (known.map (·.1)))

/-- Sees to it that an object goes on with its only key, which is left in place. -/
def onOnlyKey : Reader Unit := do
  match ← peekSolid? with
  | some '"' => pure ()
  | some '\x7d' => fail .wantValue
  | some _ => fail .keyNotString
  | none => fail (.unfinished .object)

/-- A value that is told by a name : the bare name, or an object whose only key is the name.
For each name there is a reader for what follows it in either case. -/
def choice (known : List (String × Reader α × Reader α)) : Nested α := fun depth =>
  onSolid fun c =>
    if c = '"' then do
      let (bare, _) ← name known
      bare
    else if c = '\x7b' then
      match depth with
      | 0 => fail .tooDeep
      | _ + 1 => do
        drop
        onOnlyKey
        let (_, contents) ← name known
        colon
        let x ← contents
        match ← peekSolid? with
        | some '\x7d' => drop; pure x
        | some _ => fail .wantValue
        | none => fail (.unfinished .object)
    else fail .wantValue

end Reader

/-! ## Records -/

/-- A field of a record : its key and how its value goes into the draft of the record. -/
structure Field (σ : Type) where
  key : String
  /-- Whether the draft has the field. -/
  given : σ → Bool
  /-- Reads the value into the draft. -/
  read : σ → Nested σ
  /-- Whether the field may be missing. -/
  optional : Bool

/-- A type that is read as a record, by way of drafts of type `σ`. -/
structure Record (σ α : Type) where
  /-- What messages call the type. -/
  name : String
  /-- The draft with nothing read. -/
  blank : σ
  fields : List (Field σ)
  /-- The record of a draft, or the first field that is missing. -/
  finish : σ → Except Fault α

/-- The field `key`, kept in the draft as `get` and `set` say. -/
def Field.make {σ β : Type} (key : String) (get : σ → Option β) (set : β → σ → σ)
    (value : Nested β) (optional : Bool) : Field σ where
  key
  given := fun s => (get s).isSome
  read := fun s depth => do return set (← value depth) s
  optional

/-- A value that has to be in the draft. -/
def require {β : Type} (key : String) : Option β → Except Fault β
  | some x => .ok x
  | none => .error (.missingField key)

namespace Record

open Reader

variable {σ α : Type}

/-- Takes what `Except` gives. -/
def lift (x : Except Fault α) : Reader α := fun _ cs => x.map fun a => (a, cs)

/-- What messages call a list of the fields. -/
def listName (r : Record σ α) : String :=
  r.name ++ " with " ++ Nat.repr r.fields.length ++
    (if r.fields.length = 1 then " element" else " elements")

/-- The members up to the end of an object. Each takes at least one character. -/
def members (r : Record σ α) (depth : Nat) : (fuel : Nat) → (first : Bool) → σ → Reader σ
  | 0, _, _ => fail (.unfinished .object)
  | fuel + 1, first, draft => do
    if ← hasMember first then
      let key ← StringLiteral.read
      match r.fields.find? (·.key == key) with
      | some field =>
        if field.given draft then fail (.repeatedField key)
        else
          colon
          let draft ← field.read draft depth
          members r depth fuel false draft
      | none =>
        colon
        Skip.value
        members r depth fuel false draft
    else pure draft

/-- The fields that are left, as elements of a list; `index` of them have been passed. -/
def positions (r : Record σ α) (depth : Nat) :
    List (Field σ) → (index : Nat) → (first : Bool) → σ → Reader σ
  | [], _, _, draft => pure draft
  | field :: rest, index, first, draft => do
    if ← hasElement first then
      let draft ← field.read draft depth
      positions r depth rest (index + 1) false draft
    else if field.optional then positions r depth rest (index + 1) first draft
    else fail (.wrongLength index r.listName)

/-- Reads a record, as an object or as a list. -/
def read (r : Record σ α) : Nested α := fun depth =>
  onSolid fun c =>
    if c = '[' then
      match depth with
      | 0 => fail .tooDeep
      | depth + 1 => do
        drop
        let draft ← r.positions depth r.fields 0 true r.blank
        let x ← lift (r.finish draft)
        closeList
        pure x
    else if c = '\x7b' then
      match depth with
      | 0 => fail .tooDeep
      | depth + 1 => do
        drop
        let draft ← r.members depth (← bound) true r.blank
        let x ← lift (r.finish draft)
        closeObject
        pure x
    else mismatch r.name

end Record

/-- How many brackets of a document may be open at a time. -/
def maxDepth : Nat := 127

/-- Reads a whole document. -/
def document {α : Type} (item : Nested α) (source : String) : Except Fault α := do
  let cs := source.toList
  let (x, rest) ← item maxDepth (cs.length + 1) cs
  if rest.all isBlank then .ok x else .error .trailingCharacters

end Downbeat.Json
