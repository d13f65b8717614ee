import PlanSql.Command.Run

/-!
# The program

Reads arguments, environment and files, runs the command and prints what it says.
-/

namespace PlanSql

/-- What a failure of reading says about the file. -/
def FileFault.ofError : IO.Error → FileFault
  | .noFileOrDirectory .. => .missing
  | .inappropriateType _ code _ => if code = 21 then .directory else .notDirectory
  | .invalidArgument .. => .longName
  | .permissionDenied .. => .denied
  | _ => .notText

def readFile (path : String) : IO (Except FileFault String) := do
  try
    let text ← IO.FS.readFile path
    pure (.ok text)
  catch e => pure (.error (.ofError e))

def runCommand (args : List String) : IO Command.Outcome := do
  let settingsDir := Options.settingsDir (← IO.getEnv "XDG_CONFIG_HOME") (← IO.getEnv "HOME")
  Command.runArguments readFile settingsDir (← IO.getEnv "DFQL_CONFIG") args

end PlanSql

def main (args : List String) : IO UInt32 := do
  let outcome ← PlanSql.runCommand args
  IO.print outcome.out
  IO.eprint outcome.err
  pure outcome.code.toUInt32
