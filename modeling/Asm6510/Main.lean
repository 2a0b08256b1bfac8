import Asm6510.Command.Run

/-!
# The command on this machine

Looks at the files and the environment of the machine and prints what `Command.run` gives.
-/

namespace Asm6510.Command

/-- The code of the operating system for a directory that is read as a file. -/
def directoryCode : UInt32 := 21

/-- The code of the operating system for a name that is too long. -/
def longNameCode : UInt32 := 36

/-- What an error of reading a file means. -/
def statusOfError : IO.Error → FileStatus
  | .noFileOrDirectory _ _ _ => .missing
  | .permissionDenied _ _ _ => .noAccess
  | .inappropriateType _ code _ => if code = directoryCode then .directory else .notDirectory
  | .invalidArgument _ code _ => if code = longNameCode then .nameTooLong else .missing
  | _ => .missing

/-- What is found at a path. -/
def lookAt (path : String) : IO FileStatus := do
  try
    let bytes ← IO.FS.readBinFile path
    return .file bytes.toList
  catch e =>
    return statusOfError e

/-- The environment variables that have a meaning, as far as they are set. -/
def readEnvironment : IO (List (String × String)) :=
  ["C64LSP_WARN_UNUSED", "C64LSP_WARN_ILLEGAL", "C64LSP_MAX_DEPTH", "C64LSP_DEBUG",
    "C64LSP_DATA_DIR"].filterMapM fun name => do
      let value ← IO.getEnv name
      return value.map fun v => (name, v)

/-- A text as a stream takes it: terminal sequences go to terminals only. -/
def textFor (stream : IO.FS.Stream) (text : String) : IO String := do
  return if ← stream.isTty then text else Text.plain text

/-- Runs the command and prints its outcome. -/
def execute (args : List String) : IO UInt32 := do
  let environment ← readEnvironment
  let outcome ← run lookAt (fun name => environment.lookup name) args
  IO.print (← textFor (← IO.getStdout) outcome.stdout)
  if outcome.isUsage then
    IO.eprint usageText
  IO.eprint (← textFor (← IO.getStderr) outcome.stderr)
  return outcome.exitCode.toUInt32

end Asm6510.Command

/-- The checking command. -/
def main (args : List String) : IO UInt32 :=
  Asm6510.Command.execute args
