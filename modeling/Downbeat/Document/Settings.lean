import Downbeat.Json.Typed
import Downbeat.Json.Written
import Downbeat.Settings

/-!
# Documents of settings

Settings are kept as a JSON document, in which everything may be left out that is as usual.
`Settings.ofText` reads a document and refuses settings with a flaw; `Settings.load` does so
for the contents of a file.
-/

namespace Downbeat

open Json

/-- How many numbers a 64-bit word can hold. -/
def wordBound : Nat := Nat.pow 2 64

/-! ## The script -/

namespace ScriptSettings

/-- The document of the settings. -/
def document (c : ScriptSettings) : Document :=
  .object [("start_beat", .float c.start), ("beat_runahead", .float c.runahead),
    ("seed", .natural c.seed.toNat), ("max_drain_steps", .ofOption .natural c.limit)]

/-- Settings of which some have been read. -/
structure Draft where
  start : Option Beat := none
  runahead : Option Beat := none
  seed : Option UInt64 := none
  limit : Option (Option Nat) := none

/-- The settings as records. -/
def record : Record Draft ScriptSettings where
  name := "struct ScriptConfig"
  blank := {}
  fields :=
    [.make "start_beat" Draft.start (fun x d => { d with start := some x })
        (fun _ => Reader.float) true,
      .make "beat_runahead" Draft.runahead (fun x d => { d with runahead := some x })
        (fun _ => Reader.float) true,
      .make "seed" Draft.seed (fun x d => { d with seed := some x })
        (fun _ => UInt64.ofNat <$> Reader.naturalAs "u64" wordBound) true,
      .make "max_drain_steps" Draft.limit (fun x d => { d with limit := some x })
        (fun _ => Reader.optional (Reader.naturalAs "usize" wordBound)) true]
  finish d :=
    let usual : ScriptSettings := {}
    .ok { start := d.start.getD usual.start, runahead := d.runahead.getD usual.runahead
          seed := d.seed.getD usual.seed, limit := d.limit.getD usual.limit }

end ScriptSettings

/-! ## The clock -/

namespace PlaybackSettings

/-- The document of the settings. -/
def document (c : PlaybackSettings) : Document :=
  .object [("bpm", .float c.bpm), ("tick_beats", .float c.tickBeats),
    ("length_beats", .float c.lengthBeats)]

/-- Settings of which some have been read. -/
structure Draft where
  bpm : Option Float := none
  tickBeats : Option Beat := none
  lengthBeats : Option Beat := none

/-- The settings as records. -/
def record : Record Draft PlaybackSettings where
  name := "struct PlaybackConfig"
  blank := {}
  fields :=
    [.make "bpm" Draft.bpm (fun x d => { d with bpm := some x }) (fun _ => Reader.float) true,
      .make "tick_beats" Draft.tickBeats (fun x d => { d with tickBeats := some x })
        (fun _ => Reader.float) true,
      .make "length_beats" Draft.lengthBeats (fun x d => { d with lengthBeats := some x })
        (fun _ => Reader.float) true]
  finish d :=
    let usual : PlaybackSettings := {}
    .ok { bpm := d.bpm.getD usual.bpm, tickBeats := d.tickBeats.getD usual.tickBeats
          lengthBeats := d.lengthBeats.getD usual.lengthBeats }

end PlaybackSettings

/-! ## The encounter -/

namespace EncounterSettings

/-- The document of the settings. -/
def document (c : EncounterSettings) : Document :=
  .object [("name", .text c.name), ("stem", .text c.stem),
    ("loops", .ofOption (fun n => .natural n.toNat) c.loops)]

/-- Settings of which some have been read. -/
structure Draft where
  name : Option String := none
  stem : Option String := none
  loops : Option (Option UInt32) := none

/-- The settings as records. -/
def record : Record Draft EncounterSettings where
  name := "struct EncounterConfig"
  blank := {}
  fields :=
    [.make "name" Draft.name (fun x d => { d with name := some x }) (fun _ => Reader.text) true,
      .make "stem" Draft.stem (fun x d => { d with stem := some x }) (fun _ => Reader.text) true,
      .make "loops" Draft.loops (fun x d => { d with loops := some x })
        (fun _ => Reader.optional (UInt32.ofNat <$> Reader.naturalAs "u32" (Nat.pow 2 32))) true]
  finish d :=
    let usual : EncounterSettings := {}
    .ok { name := d.name.getD usual.name, stem := d.stem.getD usual.stem
          loops := d.loops.getD usual.loops }

end EncounterSettings

/-! ## All settings -/

/-- A reason for which settings cannot be had from a file. -/
inductive FileFault where
  | missing
  | folder
  /-- A part of the path that is not a folder. -/
  | notFolder
  /-- A path, or a part of one, that is too long for any file. -/
  | nameTooLong
  | notText
deriving DecidableEq, Repr

/-- The wording of a fault. -/
def FileFault.message : FileFault → String
  | missing => "No such file or directory (os error 2)"
  | folder => "Is a directory (os error 21)"
  | notFolder => "Not a directory (os error 20)"
  | nameTooLong => "File name too long (os error 36)"
  | notText => "stream did not contain valid UTF-8"

namespace Settings

/-- The document of all settings. -/
def document (c : Settings) : Document :=
  .object [("script", c.script.document), ("playback", c.playback.document),
    ("encounter", c.encounter.document)]

/-- Settings of which some have been read. -/
structure Draft where
  script : Option ScriptSettings := none
  playback : Option PlaybackSettings := none
  encounter : Option EncounterSettings := none

/-- All settings as records. -/
def record : Record Draft Settings where
  name := "struct AppConfig"
  blank := {}
  fields :=
    [.make "script" Draft.script (fun x d => { d with script := some x })
        ScriptSettings.record.read true,
      .make "playback" Draft.playback (fun x d => { d with playback := some x })
        PlaybackSettings.record.read true,
      .make "encounter" Draft.encounter (fun x d => { d with encounter := some x })
        EncounterSettings.record.read true]
  finish d :=
    .ok { script := d.script.getD {}, playback := d.playback.getD {}
          encounter := d.encounter.getD {} }

/-- A reason for which there are no settings to work with. -/
inductive Failure where
  | flaw (f : Flaw)
  | file (f : FileFault)
  | document (f : Json.Fault)

/-- The wording of a failure. -/
def Failure.message : Failure → String
  | flaw f => f.message
  | file f => f.message
  | document f => f.message

/-- The settings, unless they have a flaw. -/
def checked (c : Settings) : Except Failure Settings :=
  match c.check with
  | .error f => .error (.flaw f)
  | .ok () => .ok c

/-- The settings of a document. -/
def ofText (source : String) : Except Failure Settings :=
  match Json.document record.read source with
  | .error f => .error (.document f)
  | .ok c => c.checked

/-- The settings in a file with the given contents. -/
def load (contents : Except FileFault ByteArray) : Except Failure Settings :=
  match contents with
  | .error f => .error (.file f)
  | .ok bytes =>
    match String.fromUTF8? bytes with
    | none => .error (.file .notText)
    | some source => ofText source

/-- The document of the settings as text. -/
def text (c : Settings) : String := c.document.pretty

end Settings

end Downbeat
