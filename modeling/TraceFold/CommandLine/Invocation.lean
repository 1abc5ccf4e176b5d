/-
  TraceFold.CommandLine.Invocation

  What a command line asks for.  Options may stand before the command or behind it, and
  what stands behind it counts.  On either side of the command an option with a value
  may come once.  What makes no sense is refused as misuse.
-/

import TraceFold.Action.Text

namespace TraceFold.CommandLine

/-- How answers are printed. -/
inductive Format where
  | json
  | text
  | pretty
  deriving DecidableEq, Repr, Inhabited

/-- The format of a name. -/
def Format.ofName? : String → Option Format
  | "json" => some .json
  | "text" => some .text
  | "pretty" => some .pretty
  | _ => none

/-- What is asked about the trace. -/
inductive Command where
  /-- What is on screen after some actions. -/
  | view (actions : List Action) (collapseStandard : Bool)
  /-- The codecs in order. -/
  | order
  /-- The path of the largest streams. -/
  | path
  deriving DecidableEq, Repr, Inhabited

/-- A command line that makes sense. -/
structure Invocation where
  command : Command
  format : Format := .pretty
  /-- The file of the settings. -/
  config : Option String := none
  /-- The file of the trace; without one it is read from standard input. -/
  file : Option String := none
  deriving DecidableEq, Repr, Inhabited

/-- Why nothing is asked about a trace. -/
inductive Halt where
  | version
  | help
  | misuse
  deriving DecidableEq, Repr

/-! ## Options -/

/-- The side of the command on which an argument stands: before it, behind `view`, or
    behind one of the other two. -/
inductive Side where
  | before
  | view
  | plain
  deriving DecidableEq, Repr

/-- An option. -/
inductive Switch where
  | format
  | config
  | file
  | action
  | collapseStandard
  | version
  | help
  deriving DecidableEq, Repr

namespace Switch

/-- Whether an option takes a value. -/
def takesValue : Switch → Bool
  | .format => true
  | .config => true
  | .file => true
  | .action => true
  | _ => false

/-- Whether an option is known on a side. -/
def isKnown (side : Side) : Switch → Bool
  | .action => side == .view
  | .collapseStandard => side == .view
  | .version => side == .before
  | _ => true

/-- The option of a long name. -/
def ofName? : List Char → Option Switch
  | cs =>
    match String.ofList cs with
    | "format" => some .format
    | "config" => some .config
    | "file" => some .file
    | "action" => some .action
    | "collapse-standard" => some .collapseStandard
    | "version" => some .version
    | "help" => some .help
    | _ => none

/-- The option of a letter. -/
def ofLetter? : Char → Option Switch
  | 'o' => some .format
  | 'c' => some .config
  | 'f' => some .file
  | 'a' => some .action
  | 'V' => some .version
  | 'h' => some .help
  | _ => none

end Switch

/-- What the options on one side say. -/
structure Given where
  format : Option Format := none
  config : Option String := none
  file : Option String := none
  actions : List Action := []
  collapseStandard : Bool := false
  deriving Inhabited

namespace Given

/-- A path, which is not empty and comes once. -/
def path (old : Option String) (value : List Char) : Except Halt (Option String) :=
  if old.isSome || value.isEmpty then .error .misuse else .ok (some (String.ofList value))

/-- With an option and its value. -/
def withValue (g : Given) (value : List Char) : Switch → Except Halt Given
  | .format =>
    match g.format, Format.ofName? (String.ofList value) with
    | none, some f => .ok { g with format := some f }
    | _, _ => .error .misuse
  | .config => (path g.config value).map fun p => { g with config := p }
  | .file => (path g.file value).map fun p => { g with file := p }
  | .action =>
    match Action.ofText (String.ofList value) with
    | .ok a => .ok { g with actions := g.actions ++ [a] }
    | .error _ => .error .misuse
  | _ => .error .misuse

/-- With an option that takes no value. -/
def withFlag (g : Given) : Switch → Except Halt Given
  | .collapseStandard =>
    if g.collapseStandard then .error .misuse else .ok { g with collapseStandard := true }
  | .version => .error .version
  | .help => .error .help
  | _ => .error .misuse

end Given

/-! ## Arguments -/

/-- What one argument says by itself. -/
inductive Argument where
  /-- The options in it are complete. -/
  | complete (given : Given)
  /-- Its last option has its value in the next argument. -/
  | open (switch : Switch) (given : Given)

/-- A long option: a name, and possibly a value behind an equals sign. -/
def longArgument (side : Side) (g : Given) (cs : List Char) : Except Halt Argument :=
  let name := cs.takeWhile (· ≠ '=')
  let value := cs.dropWhile (· ≠ '=')
  match (Switch.ofName? name).filter (Switch.isKnown side) with
  | none => .error .misuse
  | some switch =>
    match switch.takesValue, value with
    | true, [] => .ok (.open switch g)
    | true, _ :: value => (g.withValue value switch).map .complete
    | false, [] => (g.withFlag switch).map .complete
    | false, _ :: _ => .error .misuse

/-- Letters of short options.  The first one that takes a value takes what is behind it,
    without an equals sign in between. -/
def shortArgument (side : Side) (g : Given) : List Char → Except Halt Argument
  | [] => .ok (.complete g)
  | letter :: rest =>
    match (Switch.ofLetter? letter).filter (Switch.isKnown side) with
    | none => .error .misuse
    | some switch =>
      if switch.takesValue then
        match rest with
        | [] => .ok (.open switch g)
        | '=' :: value => (g.withValue value switch).map .complete
        | value => (g.withValue value switch).map .complete
      else
        match g.withFlag switch with
        | .error halt => .error halt
        | .ok g => shortArgument side g rest

/-- Whether an argument is an option and so cannot be the value of one. -/
def isOption (arg : String) : Bool :=
  arg.toList.head? == some '-' && arg != "-"

/-- The options on one side, up to the first argument that is none.  Behind two hyphens
    nothing more is allowed. -/
def scanSide (side : Side) : Given → List String → Except Halt (Given × List String)
  | g, [] => .ok (g, [])
  | g, arg :: rest =>
    if arg = "--" then if rest.isEmpty then .ok (g, []) else .error .misuse
    else
      let argument? :=
        match arg.toList with
        | '-' :: '-' :: cs => some (longArgument side g cs)
        | '-' :: c :: cs => some (shortArgument side g (c :: cs))
        | _ => none
      match argument? with
      | none => .ok (g, arg :: rest)
      | some (.error halt) => .error halt
      | some (.ok (.complete g)) => scanSide side g rest
      | some (.ok (.open switch g)) =>
        match rest with
        | [] => .error .misuse
        | value :: rest =>
          if isOption value then .error .misuse
          else
            match g.withValue value.toList switch with
            | .error halt => .error halt
            | .ok g => scanSide side g rest

/-- The side behind a command. -/
def sideOf? : String → Option Side
  | "view" => some .view
  | "order" => some .plain
  | "path" => some .plain
  | _ => none

/-- The command of a name with the options behind it. -/
def commandOf (name : String) (g : Given) : Command :=
  match name with
  | "view" => .view g.actions g.collapseStandard
  | "order" => .order
  | _ => .path

/-- A request for help is about all commands or about one of them. -/
def helpOn : List String → Halt
  | [] => .help
  | [name] => if (sideOf? name).isSome || name = "help" then .help else .misuse
  | _ => .misuse

/-- What a command line asks for, without the program's name.  `config` is the file of the
    settings that the environment names.  It counts on either side of the command where
    none is given, and may not be empty there. -/
def Invocation.ofArgs (config : Option String) (args : List String) : Except Halt Invocation := do
  let (outer, rest) ← scanSide .before {} args
  match rest with
  | [] => throw .misuse
  | name :: rest =>
    if name = "help" then throw (helpOn rest)
    else
      match sideOf? name with
      | none => throw .misuse
      | some side =>
        let (inner, rest) ← scanSide side {} rest
        let namesFile := outer.config.isSome && inner.config.isSome
        if !rest.isEmpty || (config = some "" && !namesFile) then throw .misuse
        else
          pure {
            command := commandOf name inner
            format := (inner.format.or outer.format).getD .pretty
            config := (inner.config.or outer.config).or config
            file := inner.file.or outer.file }

end TraceFold.CommandLine
