import SentinelWrap.Command.Init
import SentinelWrap.CommandLine.Arguments
/-! A whole run of the program, from its arguments to what it leaves behind. -/
namespace SentinelWrap.CommandLine

structure Result where
  exitCode : Nat
  output : String
  /-- What is said on the error channel. -/
  complaint : String := ""
  fileSystem : FileSystem

/-- The text a usage error prints where text was asked for. -/
def UsageError.output : UsageError → String
  | displayVersion => version ++ "\n"
  | _ => ""

def execute (fs : FileSystem) (environment : Command.Environment) :
    Invocation → Except Command.Failure Result
  | .check _ settings => do
    let result ← Command.check fs settings environment
    return { exitCode := result.exitCode, output := result.output, fileSystem := result.fileSystem }
  | .init _ force => do
    let (output, fs) ← Command.init fs force
    return { exitCode := 0, output, fileSystem := fs }

def run (fs : FileSystem) (environment : Command.Environment) (arguments : List String) : Result :=
  match invocation environment.lookup? arguments with
  | .error error =>
    { exitCode := error.exitCode, output := error.output, fileSystem := fs }
  | .ok invocation =>
    match execute fs environment invocation with
    | .ok result => result
    | .error failure =>
      { exitCode := 1, output := "", complaint := "Error: " ++ failure.message, fileSystem := fs }

end SentinelWrap.CommandLine
