/-
  TraceFold.Main

  The program: reads the files that the command line names, runs, and prints.
-/

import TraceFold.CommandLine.Run

open TraceFold CommandLine

/-- Why something cannot be read, with the number that the system has for it. -/
def causeOf : IO.Error → String
  | .noFileOrDirectory _ code details => numbered details code
  | .permissionDenied _ code details => numbered details code
  | .inappropriateType _ code details => numbered details code
  | .invalidArgument _ code details => numbered details code
  | .resourceExhausted _ code details => numbered details code
  | .hardwareFault code details => numbered details code
  | .otherError code details => numbered details code
  | e => e.toString
where
  numbered (details : String) (code : UInt32) : String :=
    details ++ " (os error " ++ toString code.toNat ++ ")"

/-- The text of octets that are well-formed. -/
def textOf (octets : ByteArray) : Except String String :=
  match String.fromUTF8? octets with
  | some text => .ok text
  | none => .error "stream did not contain valid UTF-8"

/-- The text of a file, or why it cannot be read. -/
def readText (path : String) : IO (Except String String) := do
  try
    let octets ← IO.FS.withFile path .read (·.readBinToEnd)
    pure (textOf octets)
  catch e => pure (.error (causeOf e))

/-- The trace that an invocation names. -/
def readTrace (i : Invocation) : IO (Except RunError String) := do
  match i.file with
  | some path => do
    let text ← readText path
    pure (text.mapError (.unreadable path))
  | none => do
    let stdin ← IO.getStdin
    if ← stdin.isTty then pure (.error .noInput)
    else
      try
        let octets ← stdin.readBinToEnd
        pure ((textOf octets).mapError .unreadableInput)
      catch e => pure (.error (.unreadableInput (causeOf e)))

/-- Prints an outcome and gives its exit code. -/
def report (o : Outcome) : IO UInt32 := do
  IO.print o.stdout
  IO.eprint o.stderr
  pure (UInt32.ofNat o.code)

def main (args : List String) : IO UInt32 := do
  let named ← IO.getEnv "STREAMDUMP_CONFIG"
  match Invocation.ofArgs named args with
  | .error halt => report halt.outcome
  | .ok i =>
    let config ← readText (i.config.getD "")
    let trace ← readTrace i
    report (i.run config trace)
