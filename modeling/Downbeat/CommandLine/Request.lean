import Downbeat.Decimal.Numeral

/-!
# Requests on the command line

There are two commands : `run` plays an encounter, and `config` writes the usual settings.
`Request.ofArguments` reads the arguments from the left, and the first one that is out of
place, or that asks for help, settles the matter. An argument that begins with a dash is
never the value of an option, unless it is joined to the option.
-/

namespace Downbeat.CommandLine

/-- What is asked for. -/
inductive Request where
  /-- Plays the encounter of the settings in a file, or of the usual ones. -/
  | run (settings : Option String) (beats : Option Float) (json : Bool)
  /-- Writes the usual settings to a file, or prints them. -/
  | config (output : Option String)

/-- Why there is no request. -/
inductive Halt where
  /-- Help or the version is asked for. -/
  | information
  /-- The arguments are not a request. -/
  | usage
deriving DecidableEq, Repr

/-- The options of `run` that have been read. -/
structure Options where
  config : Option String := none
  beats : Option Float := none
  json : Bool := false

/-- Whether an argument can only be an option, or the end of options. -/
def isOption (a : String) : Bool :=
  match a.toList with
  | '-' :: _ :: _ => true
  | _ => false

namespace Options

/-- Takes the file of settings. -/
def setConfig (o : Options) (value : String) : Except Halt Options :=
  if o.config.isSome || value.isEmpty then .error .usage else .ok { o with config := some value }

/-- Takes the length of the show. -/
def setBeats (o : Options) (value : String) : Except Halt Options :=
  if o.beats.isSome then .error .usage
  else match Decimal.Numeral.read? value with
    | some x => .ok { o with beats := some x }
    | none => .error .usage

/-- Takes the form of the listing. -/
def setJson (o : Options) : Except Halt Options :=
  if o.json then .error .usage else .ok { o with json := true }

end Options

/-- An argument that is an option, cut into its parts. -/
inductive Flag where
  /-- `--name` or `--name=value`. -/
  | long (name : List Char) (value : Option (List Char))
  /-- `-x`, with all that follows. -/
  | short (name : Char) (rest : List Char)
  /-- `--`. -/
  | endOfOptions
  | plain

/-- Cuts an argument into its parts. -/
def Flag.ofArgument (a : String) : Flag :=
  match a.toList with
  | ['-', '-'] => .endOfOptions
  | '-' :: '-' :: cs =>
    .long (cs.takeWhile (· ≠ '='))
      (match cs.dropWhile (· ≠ '=') with
        | [] => none
        | _ :: value => some value)
  | '-' :: c :: cs => .short c cs
  | _ => .plain

/-- The value joined to a short option, if there is one. -/
def joinedValue : List Char → Option String
  | [] => none
  | '=' :: cs => some (String.ofList cs)
  | cs => some (String.ofList cs)

/-- Reads the options of `run`. -/
def runOptions : Options → List String → Except Halt Options
  | o, [] => .ok o
  | o, a :: rest =>
    let valued (set : Options → String → Except Halt Options) (joined : Option String) :
        Except Halt Options :=
      match joined with
      | some v => do runOptions (← set o v) rest
      | none =>
        match rest with
        | [] => .error .usage
        | v :: rest => if isOption v then .error .usage else do runOptions (← set o v) rest
    match Flag.ofArgument a with
    | .plain => .error .usage
    | .endOfOptions => if rest.isEmpty then .ok o else .error .usage
    | .long name value =>
      let name := String.ofList name
      if name = "config" then valued Options.setConfig (value.map String.ofList)
      else if name = "beats" then valued Options.setBeats (value.map String.ofList)
      else if value.isSome then .error .usage
      else if name = "json" then do runOptions (← o.setJson) rest
      else if name = "help" then .error .information
      else .error .usage
    | .short c cs =>
      if c = 'c' then valued Options.setConfig (joinedValue cs)
      else if c = 'b' then valued Options.setBeats (joinedValue cs)
      else if c = 'h' then .error .information
      else .error .usage

/-- Takes the file to write to. -/
def setOutput (output : Option String) (value : String) : Except Halt (Option String) :=
  if output.isSome || value.isEmpty then .error .usage else .ok (some value)

/-- Takes arguments none of which is an option. -/
def plainOutput : Option String → List String → Except Halt (Option String)
  | output, [] => .ok output
  | output, a :: rest => do plainOutput (← setOutput output a) rest

/-- Reads the arguments of `config`. -/
def configOutput : Option String → List String → Except Halt (Option String)
  | output, [] => .ok output
  | output, a :: rest =>
    match Flag.ofArgument a with
    | .plain => do configOutput (← setOutput output a) rest
    | .endOfOptions => plainOutput output rest
    | .long name none =>
      if String.ofList name = "help" then .error .information else .error .usage
    | .long _ (some _) => .error .usage
    | .short c _ => if c = 'h' then .error .information else .error .usage

/-- Reads the arguments of `help`, which name at most one command. -/
def helpTopic : List String → Halt
  | [] | ["run"] | ["config"] | ["help"] => .information
  | _ => .usage

/-- Reads an argument before the command. -/
def beforeCommand (a : String) : Halt :=
  match Flag.ofArgument a with
  | .long name none =>
    if String.ofList name = "help" || String.ofList name = "version" then .information else .usage
  | .short c _ => if c = 'h' || c = 'V' then .information else .usage
  | _ => .usage

/-- Reads the arguments. -/
def Request.ofArguments : List String → Except Halt Request
  | [] => .error .usage
  | "run" :: rest => do
    let o ← runOptions {} rest
    return .run o.config o.beats o.json
  | "config" :: rest => do return .config (← configOutput none rest)
  | "help" :: rest => .error (helpTopic rest)
  | a :: _ => .error (beforeCommand a)

end Downbeat.CommandLine
