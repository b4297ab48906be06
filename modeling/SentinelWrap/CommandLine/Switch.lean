/-! The switches of the command line, by their long and short names. -/
namespace SentinelWrap.CommandLine

inductive Switch
  | verbose
  | help
  | version
  | fix
  | format
  | config
  | jobs
  | noTests
  | showFixes
  | plain
  | force
deriving DecidableEq, Repr

def Switch.takesValue : Switch → Bool
  | format | config | jobs => true
  | _ => false

/-- Which part of the command line is read. -/
inductive Scope
  | top
  | check
  | init
deriving DecidableEq, Repr

namespace Scope

def long? : Scope → String → Option Switch
  | _, "verbose" => some .verbose
  | _, "help" => some .help
  | top, "version" => some .version
  | check, "fix" => some .fix
  | check, "format" => some .format
  | check, "config" => some .config
  | check, "jobs" => some .jobs
  | check, "no-tests" => some .noTests
  | check, "show-fixes" => some .showFixes
  | check, "plain" => some .plain
  | init, "force" => some .force
  | _, _ => none

def short? : Scope → Char → Option Switch
  | _, 'v' => some .verbose
  | _, 'h' => some .help
  | top, 'V' => some .version
  | check, 'f' => some .format
  | check, 'c' => some .config
  | check, 'j' => some .jobs
  | init, 'f' => some .force
  | _, _ => none

end Scope
end SentinelWrap.CommandLine
