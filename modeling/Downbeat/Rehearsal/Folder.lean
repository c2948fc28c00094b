import Downbeat.CommandLine.Response

/-!
# A folder to try commands in

A folder in memory, which holds files but no folders, stands in for the disk when a command
is tried out (`Folder.attempt`). Paths are bounded as on a disk, in bytes. Of what lies
outside the folder little is known : there are folders above it, in which it can write, and
there is the null device.
-/

namespace Downbeat

/-- The files of a folder, by their names. -/
structure Folder where
  files : List (String × ByteArray) := []

namespace Folder

/-- What a path leads to, as seen from the folder. -/
inductive Target where
  /-- A file in the folder, which need not be there. -/
  | file (name : String)
  /-- A place outside the folder, with what is read there. What is written there is not
  seen from the folder. -/
  | outside (contents : Except FileFault ByteArray)
  | fault (f : FileFault)

/-- The longest path in bytes. -/
def maxPath : Nat := 4095

/-- The longest part of a path in bytes. -/
def maxName : Nat := 255

/-- What a path leads to by way of a name, which must not be too long. -/
def Target.byName (name : String) (t : Target) : Target :=
  if maxName < name.utf8ByteSize then .fault .nameTooLong else t

/-- The parts of a path between its slashes. -/
def parts (path : String) : List String :=
  path.splitOn "/"

/-- What a path leads to. A path that ends in a slash or a dot cannot lead to a file. -/
def target (d : Folder) (path : String) : Target :=
  let ps := parts path
  let isFile := ps.getLast?.all fun p => p ≠ "" ∧ p ≠ "."
  let steps := ps.filter fun p => p ≠ "" ∧ p ≠ "."
  if maxPath < path.utf8ByteSize then .fault .nameTooLong
  else if path.isEmpty then .fault .missing
  else if path.toList.head? = some '/' then
    if steps = [] then .fault .folder
    else if steps = ["dev", "null"] && isFile then .outside (.ok .empty)
    else .fault .missing
  else match steps with
    | [] => .fault .folder
    | ".." :: rest =>
      match rest.dropWhile (· == "..") with
      | [] => .fault .folder
      | name :: rest =>
        .byName name (if rest.isEmpty && isFile then .outside (.error .missing)
          else .fault .missing)
    | name :: rest =>
      .byName name (if rest.isEmpty && isFile then .file name
        else .fault (if (d.files.lookup name).isSome then .notFolder else .missing))

/-- The contents of a file. -/
def read (d : Folder) (path : String) : Except FileFault ByteArray :=
  match d.target path with
  | .fault f => .error f
  | .outside contents => contents
  | .file name =>
    match d.files.lookup name with
    | some bytes => .ok bytes
    | none => .error .missing

/-- The folder with a file written. -/
def write (d : Folder) (path text : String) : Except FileFault Folder :=
  match d.target path with
  | .fault f => .error f
  | .outside _ => .ok d
  | .file name => .ok ⟨(name, text.toUTF8) :: d.files.filter (·.1 ≠ name)⟩

/-- The text of a file. -/
def text? (d : Folder) (name : String) : Option String :=
  (d.files.lookup name).bind String.fromUTF8?

/-- Tries a command out : the response, and the folder after it. -/
def attempt (fuel : Nat) (d : Folder) (args : List String) :
    Option (CommandLine.Response × Folder) :=
  (CommandLine.respond fuel d.read args).map fun r =>
    match r.written with
    | none => (r, d)
    | some (path, text) =>
      match d.write path text with
      | .ok d' => (r, d')
      | .error f => (.failed (.file f), d)

end Folder

end Downbeat
