/-
  TraceFold.CommandLine.Run

  A run of the program: from what the command line asks for, and the texts that it
  names, to what is printed and the exit code.  Settings are read first, then the trace;
  the first thing that is wrong ends the run.
-/

import TraceFold.CommandLine.Report
import TraceFold.Settings.Error
import TraceFold.Settings.Yaml
import TraceFold.Trace.Json

namespace TraceFold.CommandLine

/-- Why a run ends without an answer. -/
inductive RunError where
  | settings (path : String) (error : SettingsError)
  /-- The file of the trace cannot be read. -/
  | unreadable (path cause : String)
  /-- Standard input cannot be read. -/
  | unreadableInput (cause : String)
  /-- No file is given, and nothing is piped in. -/
  | noInput
  | malformedTrace
  | fault (fault : Fault)
  | action (action : Action) (error : LookupError)
  | picture (error : LookupError)
  deriving DecidableEq, Repr

namespace RunError

/-- What was being done, and what went wrong.  The cause of a failed read is told twice:
    with the file, and by itself. -/
def message : RunError → String
  | .settings path error =>
    let again := match error with
      | .unreadable _ cause => ": " ++ cause
      | .malformed => ""
    "loading config '" ++ path ++ "': " ++ error.message ++ again
  | .unreadable path cause => "Failed to read '" ++ path ++ "': " ++ cause
  | .unreadableInput cause => "Failed to read stdin: " ++ cause
  | .noInput => "No input provided. Use --file or pipe a trace via stdin."
  | .malformedTrace =>
    "building graph from trace: [INVALID_JSON] Invalid trace JSON: not a trace"
  | .fault f => "building graph from trace: [" ++ f.code ++ "] " ++ f.message
  | .action a error => "applying '" ++ a.text ++ "': " ++ error.message
  | .picture error => "projecting visible graph: " ++ error.message

end RunError

/-- What a run prints, and its exit code. -/
structure Outcome where
  code : Nat
  stdout : String := ""
  stderr : String := ""
  deriving DecidableEq, Repr, Inhabited

/-- The outcome of a failed run: as JSON on standard output, or as a line on standard
    error. -/
def RunError.outcome (format : Format) (e : RunError) : Outcome :=
  match format with
  | .json =>
    { code := 1, stdout := (Json.ofMembers [("error", .ofString e.message)]).compact ++ "\n" }
  | _ => { code := 1, stderr := "error: " ++ e.message ++ "\n" }

/-- The settings of a run.  `config` is the text of their file, or why it cannot be read. -/
def settingsOf (i : Invocation) (config : Except String String) : Except RunError Settings :=
  match i.config with
  | none => .ok {}
  | some path =>
    match config with
    | .error cause => .error (.settings path (.unreadable path cause))
    | .ok text =>
      match Settings.parse? text with
      | none => .error (.settings path .malformed)
      | some settings => .ok settings

/-- Does actions one after the other. -/
def applyAll (s : Scene) : Folding → List Action → Except RunError Folding
  | f, [] => .ok f
  | f, a :: rest =>
    match s.apply f a with
    | .error e => .error (.action a e)
    | .ok (f, _) => applyAll s f rest

/-- The answer to a command about a scene. -/
def answer (i : Invocation) (s : Scene) : Except RunError String :=
  match i.command with
  | .order => .ok (orderReport i.format s)
  | .path => .ok (pathReport i.format s s.pipeline.largestPath)
  | .view actions _ =>
    match applyAll s s.start actions with
    | .error e => .error e
    | .ok f =>
      match s.view f with
      | .error e => .error (.picture e)
      | .ok v => .ok (viewReport i.format v)

/-- Whether a command asks for standard graphs to be collapsed at the start. -/
def Command.collapsesStandard : Command → Bool
  | .view _ collapseStandard => collapseStandard
  | _ => false

/-- The whole run.  `config` and `input` are the texts that the command line names, or why
    they cannot be read. -/
def Invocation.answer (i : Invocation) (config : Except String String)
    (input : Except RunError String) : Except RunError String := do
  let settings ← settingsOf i config
  let settings := { settings with
    collapseStandardGraphs := settings.collapseStandardGraphs || i.command.collapsesStandard }
  let text ← input
  match Trace.parse? text with
  | none => throw .malformedTrace
  | some trace =>
    match Scene.build trace settings with
    | .error fault => throw (.fault fault)
    | .ok scene => CommandLine.answer i scene

/-- The outcome of a run. -/
def Invocation.run (i : Invocation) (config : Except String String)
    (input : Except RunError String) : Outcome :=
  match i.answer config input with
  | .error e => e.outcome i.format
  | .ok stdout => { code := 0, stdout }

/-- The outcome of a command line that asks nothing about a trace. -/
def Halt.outcome : Halt → Outcome
  | .version => { code := 0, stdout := "streamdump 0.1.0\n" }
  | .help =>
    { code := 0
      stdout := "Inspect compression traces: visible graph, DAG order and largest path\n\n"
        ++ "Usage: streamdump [OPTIONS] <COMMAND>\n" }
  | .misuse => { code := 2, stderr := "error: wrong usage\n" }

end TraceFold.CommandLine
