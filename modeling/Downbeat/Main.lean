import Downbeat.CommandLine.Response

/-!
# The program

Reads the file of settings that the arguments name, prints the response, writes the file
that is part of it, and ends with its status.
-/

namespace Downbeat.CommandLine

/-- A bound that no show gets to. -/
def patience : Nat := Nat.pow 2 60

/-- The contents of a file. -/
def readFile (path : String) : IO (Except FileFault ByteArray) := do
  try
    return .ok (← IO.FS.readBinFile path)
  catch
    | .noFileOrDirectory .. => return .error .missing
    | .inappropriateType .. => return .error .folder
    | .invalidArgument .. => return .error .nameTooLong
    | _ => return .error .missing

/-- The files that a request reads. -/
def readFor : Except Halt Request → IO (String → Except FileFault ByteArray)
  | .ok (.run (some path) _ _) => do
    let contents ← readFile path
    return fun _ => contents
  | _ => return fun _ => .error .missing

end Downbeat.CommandLine

open Downbeat CommandLine in
/-- Runs the program. -/
def main (args : List String) : IO UInt32 := do
  let read ← readFor (Request.ofArguments args)
  match respond patience read args with
  | none => return 1
  | some r =>
    IO.print r.printed
    if let some f := r.failure then IO.eprintln ("Error: " ++ f.message)
    if let some (path, text) := r.written then
      try
        IO.FS.writeFile path text
      catch e =>
        IO.eprintln ("Error: " ++ toString e)
        return 1
    return r.status
