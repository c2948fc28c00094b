import Downbeat.Cue
import Downbeat.Json.Held
import Downbeat.Json.Written

/-!
# Documents of cues

Cues and what fired are kept as JSON. What a cue is for is told by a tag `type`, beside the
one thing that is to be known about it. The tag may come before or after it, so the parts
are held back until the tag is known.
-/

namespace Downbeat

open Json

namespace Cue.Kind

/-- The document of what a cue is for. -/
def document : Kind → Document
  | stem name => .object [("type", .text "music_stem"), ("stem", .text name)]
  | spawn pattern => .object [("type", .text "spawn"), ("pattern", .text pattern)]
  | camera zoom => .object [("type", .text "camera"), ("zoom", .float zoom)]
  | lights color => .object [("type", .text "lighting"), ("color", .text color)]

/-- How one kind is written : its name in messages, and the field beside its tag. -/
structure Form where
  name : String
  field : String
  read : Held → Except Fault Kind

/-- The kinds by their tags. -/
def forms : List (String × Form) :=
  [("music_stem", ⟨"MusicStem", "stem", fun x => stem <$> x.asText⟩),
    ("spawn", ⟨"Spawn", "pattern", fun x => spawn <$> x.asText⟩),
    ("camera", ⟨"Camera", "zoom", fun x => camera <$> x.asFloat⟩),
    ("lighting", ⟨"Lighting", "color", fun x => lights <$> x.asText⟩)]

/-- The key of the tag. -/
def tagKey : String := "type"

namespace Form

/-- Takes a kind from the members beside its tag. Unknown members are passed over. -/
def ofMembers (form : Form) : Option Kind → List (String × Held) → Except Fault Kind
  | some k, [] => .ok k
  | none, [] => .error (.missingField form.field)
  | found, (key, x) :: rest =>
    if key = form.field then
      match found with
      | some _ => .error (.repeatedField key)
      | none => do
        let k ← form.read x
        ofMembers form (some k) rest
    else ofMembers form found rest

/-- Takes a kind from the elements behind its tag. -/
def ofElements (form : Form) : List Held → Except Fault Kind
  | [] => .error (.wrongLength 0 ("struct variant CueKind::" ++ form.name ++ " with 1 element"))
  | x :: rest => do
    let k ← form.read x
    if rest.isEmpty then .ok k
    else .error (.wrongLength (rest.length + 1) "1 element in sequence")

end Form

/-- The tag and the other members up to the end of an object. -/
def members (item : Reader Held) :
    (fuel : Nat) → (first : Bool) → Option Form → Reader (Form × List (String × Held))
  | 0, _, _ => Reader.fail (.unfinished .object)
  | fuel + 1, first, tag => do
    if ← Reader.hasMember first then
      let key ← StringLiteral.read
      if key = tagKey then
        if tag.isSome then Reader.fail (.repeatedField key)
        else
          Reader.colon
          let form ← Reader.name forms
          members item fuel false (some form)
      else
        Reader.colon
        let x ← item
        let (form, rest) ← members item fuel false tag
        pure (form, (key, x) :: rest)
    else
      match tag with
      | some form => pure (form, [])
      | none => Reader.fail (.missingField tagKey)

/-- Reads what a cue is for. -/
def read : Nested Kind := fun depth =>
  Reader.onSolid fun c =>
    if c = '[' then
      match depth with
      | 0 => Reader.fail .tooDeep
      | depth + 1 => do
        Reader.drop
        if ← Reader.hasElement true then
          let form ← Reader.name forms
          let rest ← Reader.elements (Held.read depth) (← Reader.bound) false
          Reader.closeList
          Record.lift (form.ofElements rest)
        else Reader.fail (.missingField tagKey)
    else if c = '\x7b' then
      match depth with
      | 0 => Reader.fail .tooDeep
      | depth + 1 => do
        Reader.drop
        let (form, rest) ← members (Held.read depth) (← Reader.bound) true none
        Reader.closeObject
        Record.lift (form.ofMembers none rest)
    else Reader.mismatch "internally tagged enum CueKind"

end Cue.Kind

/-! ## Cues -/

namespace Cue

/-- The document of a cue. -/
def document (c : Cue) : Document :=
  .object [("beat", .float c.beat), ("width", .float c.width), ("label", .text c.label),
    ("kind", c.kind.document)]

/-- A cue of which some parts have been read. -/
structure Draft where
  beat : Option Beat := none
  width : Option Beat := none
  label : Option String := none
  kind : Option Kind := none

/-- Cues as records. A missing width is zero. -/
def record : Record Draft Cue where
  name := "struct Cue"
  blank := {}
  fields :=
    [.make "beat" Draft.beat (fun x d => { d with beat := some x }) (fun _ => Reader.float) false,
      .make "width" Draft.width (fun x d => { d with width := some x })
        (fun _ => Reader.float) true,
      .make "label" Draft.label (fun x d => { d with label := some x })
        (fun _ => Reader.text) false,
      .make "kind" Draft.kind (fun x d => { d with kind := some x }) Kind.read false]
  finish d := do
    let beat ← require "beat" d.beat
    let label ← require "label" d.label
    let kind ← require "kind" d.kind
    return { beat, width := d.width.getD 0, label, kind }

end Cue

/-! ## What fired -/

namespace Firing

/-- The document of a cue that fired. -/
def document (f : Firing) : Document :=
  .object [("label", .text f.label), ("kind", f.kind.document),
    ("scheduled_beat", .float f.scheduled), ("fired_beat", .float f.fired)]

/-- A firing of which some parts have been read. -/
structure Draft where
  label : Option String := none
  kind : Option Cue.Kind := none
  scheduled : Option Beat := none
  fired : Option Beat := none

/-- Firings as records. -/
def record : Record Draft Firing where
  name := "struct CueRecord"
  blank := {}
  fields :=
    [.make "label" Draft.label (fun x d => { d with label := some x }) (fun _ => Reader.text) false,
      .make "kind" Draft.kind (fun x d => { d with kind := some x }) Cue.Kind.read false,
      .make "scheduled_beat" Draft.scheduled (fun x d => { d with scheduled := some x })
        (fun _ => Reader.float) false,
      .make "fired_beat" Draft.fired (fun x d => { d with fired := some x })
        (fun _ => Reader.float) false]
  finish d := do
    let label ← require "label" d.label
    let kind ← require "kind" d.kind
    let scheduled ← require "scheduled_beat" d.scheduled
    let fired ← require "fired_beat" d.fired
    return { label, kind, scheduled, fired }

/-- The document of a log. -/
def logDocument (fs : List Firing) : Document := .list (fs.map document)

/-- Reads a log. -/
def readLog : Nested (List Firing) := Reader.list record.read

end Firing

end Downbeat
