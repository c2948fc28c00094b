import Downbeat.CommandLine.Request
import Downbeat.Document.Cue
import Downbeat.Document.Settings
import Downbeat.Playback

/-!
# Responses

What the program prints and writes for a request, and the status it ends with : 0 if all
went well, 1 after a failure, 2 if the arguments are no request. Files are read by a
function that is handed in, and a file to be written is part of the response.
-/

namespace Downbeat.CommandLine

/-- What the program does for its arguments. -/
structure Response where
  status : UInt32 := 0
  printed : String := ""
  failure : Option Settings.Failure := none
  /-- A file to be written, by its path and its text. -/
  written : Option (String × String) := none

namespace Response

/-- The response to a failure. -/
def failed (f : Settings.Failure) : Response := { status := 1, failure := some f }

/-- The response to arguments that are no request. The text of help is not part of it. -/
def halted : Halt → Response
  | .information => {}
  | .usage => { status := 2 }

end Response

/-- A text as a line. -/
def line (s : String) : String := s ++ "\n"

/-- What is printed about a show. -/
def printed (json : Bool) (fs : List Firing) : String :=
  if json then line (Firing.logDocument fs).pretty
  else String.join (fs.map fun f => line f.listing)

/-- The settings of a show. They are checked in the file, and with the length that was
asked for. -/
def settings (read : String → Except FileFault ByteArray) (config : Option String)
    (beats : Option Float) : Except Settings.Failure Settings := do
  let c ← match config with
    | some path => Settings.load (read path)
    | none => .ok {}
  let playback := { c.playback with lengthBeats := beats.getD c.playback.lengthBeats }
  Settings.checked { c with playback }

/-- The response to a request. It is missing if it is more work than `fuel`. -/
def Request.respond (fuel : Nat) (read : String → Except FileFault ByteArray) :
    Request → Option Response
  | .run file beats json =>
    match settings read file beats with
    | .error f => some (.failed f)
    | .ok c => (Playback.fired fuel c).map fun fs => { printed := printed json fs }
  | .config none => some { printed := line ({} : Settings).text }
  | .config (some path) => some { written := some (path, ({} : Settings).text) }

/-- The response to arguments. -/
def respond (fuel : Nat) (read : String → Except FileFault ByteArray) (args : List String) :
    Option Response :=
  match Request.ofArguments args with
  | .error h => some (.halted h)
  | .ok r => r.respond fuel read

end Downbeat.CommandLine
