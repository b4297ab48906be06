/-! Why a command line is not understood, or asks for a text instead of work. -/
namespace SentinelWrap.CommandLine

inductive UsageError
  | displayHelp
  | displayVersion
  /-- There were no arguments at all. -/
  | nothingGiven
  | missingSubcommand
  | invalidSubcommand
  | unknownArgument
  /-- A value that is missing, empty or none of those allowed. -/
  | invalidValue
  /-- A value that is no number. -/
  | malformedValue
  /-- An option that was given twice. -/
  | repeated
  /-- A value for a switch that takes none. -/
  | unneededValue
deriving DecidableEq, Repr

/-- Asking for help or for the version is no mistake. -/
def UsageError.exitCode : UsageError → Nat
  | displayHelp | displayVersion => 0
  | _ => 2

def version : String := "errwrap 0.3.1"

end SentinelWrap.CommandLine
