import SentinelWrap.Command.Check
import SentinelWrap.CommandLine.Switch
import SentinelWrap.CommandLine.Usage
/-!
Reading arguments one at a time. An option waits for its value, and paths wait for more paths; what
waits is checked when something else is met or the arguments end.
-/
namespace SentinelWrap.CommandLine

/-- What was given so far. -/
structure Given where
  verbosity : Nat := 0
  paths : List Path := []
  fix : Bool := false
  format : Option OutputFormat := none
  config : Option Path := none
  jobs : Option Nat := none
  noTests : Bool := false
  showFixes : Bool := false
  plain : Bool := false
  force : Bool := false
deriving DecidableEq, Repr

inductive Waiting
  | nothing
  | option (switch : Switch) (value : Option String)
  | paths (values : List String)
deriving DecidableEq, Repr

structure State where
  given : Given := {}
  waiting : Waiting := .nothing
  /-- After two dashes there are no more switches. -/
  isEscaped : Bool := false
deriving DecidableEq, Repr

def path? (text : String) : Except UsageError Path :=
  if text.isEmpty then throw .invalidValue else return ⟨text⟩

/-- An unsigned number of 64 bits; a plus sign may stand before it. -/
def number? (text : String) : Except UsageError Nat :=
  let digits := match text.toList with
    | '+' :: rest => rest
    | cs => cs
  let n := digits.foldl (fun n c => 10 * n + (c.toNat - '0'.toNat)) 0
  if digits.isEmpty || !digits.all Char.isDigit || UInt64.size ≤ n then throw .malformedValue
  else return n

def format? : String → Except UsageError OutputFormat
  | "text" => return .text
  | "json" => return .json
  | _ => throw .invalidValue

/-- The verbosity is counted up to 255. -/
def countLimit : Nat := 255

def setOnce (isSet : Bool) (given : Given) : Except UsageError Given :=
  if isSet then throw .repeated else return given

namespace Given

/-- A switch without a value. -/
def addFlag (given : Given) : Switch → Except UsageError Given
  | .verbose => return { given with verbosity := min (given.verbosity + 1) countLimit }
  | .help => throw .displayHelp
  | .version => throw .displayVersion
  | .fix => setOnce given.fix { given with fix := true }
  | .noTests => setOnce given.noTests { given with noTests := true }
  | .showFixes => setOnce given.showFixes { given with showFixes := true }
  | .plain => setOnce given.plain { given with plain := true }
  | .force => setOnce given.force { given with force := true }
  | .format | .config | .jobs => throw .invalidValue

/-- An option with its value. That it was given before is told first. -/
def addOption (given : Given) (switch : Switch) (value : String) : Except UsageError Given :=
  match switch with
  | .format => do
    let given ← setOnce given.format.isSome given
    return { given with format := some (← format? value) }
  | .config => do
    let given ← setOnce given.config.isSome given
    return { given with config := some (← path? value) }
  | .jobs => do
    let given ← setOnce given.jobs.isSome given
    return { given with jobs := some (← number? value) }
  | _ => throw .unneededValue

end Given

namespace State

/-- Checks what waits. -/
def settle (state : State) : Except UsageError State :=
  match state.waiting with
  | .nothing => return state
  | .option _ none => throw .invalidValue
  | .option switch (some value) => do
    return { state with given := ← state.given.addOption switch value, waiting := .nothing }
  | .paths values => do
    let paths ← values.mapM path?
    return { state with
      given := { state.given with paths := state.given.paths ++ paths }
      waiting := .nothing }

def flag (state : State) (switch : Switch) : Except UsageError State := do
  let state ← state.settle
  return { state with given := ← state.given.addFlag switch }

/-- An option whose value is attached, or still to come. -/
def option (state : State) (switch : Switch) (value : Option String) : Except UsageError State := do
  let state ← state.settle
  match value with
  | some value => return { state with given := ← state.given.addOption switch value }
  | none => return { state with waiting := .option switch none }

/-- A word that is no switch. Only checks take paths. -/
def word (scope : Scope) (state : State) (text : String) : Except UsageError State :=
  match scope, state.waiting with
  | .check, .paths values => return { state with waiting := .paths (values ++ [text]) }
  | .check, _ => do
    let state ← state.settle
    return { state with waiting := .paths [text] }
  | .init, _ => throw .unknownArgument
  | .top, _ => throw .invalidSubcommand

/-- `--name` or `--name=value`, without the dashes. -/
def long (scope : Scope) (state : State) (cs : List Char) : Except UsageError State :=
  let name := String.ofList (cs.takeWhile (· != '='))
  let value := match cs.dropWhile (· != '=') with
    | [] => none
    | _ :: rest => some (String.ofList rest)
  match scope.long? name, value with
  | none, _ => throw .unknownArgument
  | some switch, value =>
    if switch.takesValue then state.option switch value
    else if value.isSome then throw .unneededValue
    else state.flag switch

/-- Short names after one dash; an option takes what follows it as its value. -/
def short (scope : Scope) : State → List Char → Except UsageError State
  | state, [] => return state
  | state, c :: rest =>
    match scope.short? c with
    | none => throw .unknownArgument
    | some switch =>
      if switch.takesValue then
        state.option switch (match rest with
          | [] => none
          | '=' :: rest => some (String.ofList rest)
          | rest => some (String.ofList rest))
      else do short scope (← state.flag switch) rest

def argument (scope : Scope) (state : State) (text : String) : Except UsageError State :=
  if state.isEscaped then state.word scope text
  else
    match text.toList with
    | ['-', '-'] => return { state with isEscaped := true }
    | '-' :: '-' :: cs => state.long scope cs
    | '-' :: c :: cs => state.short scope (c :: cs)
    | _ =>
      match state.waiting with
      | .option switch none => return { state with waiting := .option switch (some text) }
      | _ => state.word scope text

/-- All arguments of a subcommand. -/
def arguments (scope : Scope) (texts : List String) : Except UsageError Given := do
  let state ← texts.foldlM (argument scope) {}
  return (← state.settle).given

end State

inductive Invocation
  | check (verbosity : Nat) (settings : Command.CheckSettings)
  | init (verbosity : Nat) (force : Bool)
deriving DecidableEq, Repr

/-- The count after the subcommand wins over the one before it. -/
def verbosity (before after : Nat) : Nat := if after = 0 then before else after

/-- The number of jobs may also come from the environment. -/
def jobs? (lookup? : String → Option String) (given : Given) : Except UsageError (Option Nat) :=
  match given.jobs, lookup? "ERRWRAP_JOBS" with
  | some n, _ => return some n
  | none, none => return none
  | none, some text => return some (← number? text)

def checkInvocation (lookup? : String → Option String) (before : Nat) (texts : List String) :
    Except UsageError Invocation := do
  let given ← State.arguments .check texts
  let jobs ← jobs? lookup? given
  return .check (verbosity before given.verbosity) {
    paths := if given.paths.isEmpty then [⟨"."⟩] else given.paths
    fix := given.fix
    format := given.format
    config := given.config
    jobs
    noTests := given.noTests
    showFixes := given.showFixes
    plain := given.plain }

def initInvocation (before : Nat) (texts : List String) : Except UsageError Invocation := do
  let given ← State.arguments .init texts
  return .init (verbosity before given.verbosity) given.force

/-- Help can be asked for about the subcommands, and they have none of their own. -/
def helpError : List String → UsageError
  | [] | ["check"] | ["init"] | ["help"] => .displayHelp
  | _ => .invalidSubcommand

def isSubcommand (text : String) : Bool := text == "check" || text == "init" || text == "help"

/-- Arguments up to the subcommand. -/
def invocationFrom (lookup? : String → Option String) :
    State → List String → Except UsageError Invocation
  | state, [] =>
    if state.given.verbosity = 0 then throw .nothingGiven else throw .missingSubcommand
  | state, text :: texts =>
    if state.isEscaped then
      if isSubcommand text then throw .unknownArgument else throw .invalidSubcommand
    else if text == "check" then checkInvocation lookup? state.given.verbosity texts
    else if text == "init" then initInvocation state.given.verbosity texts
    else if text == "help" then throw (helpError texts)
    else do invocationFrom lookup? (← state.argument .top text) texts

/-- The meaning of the arguments after the program's name. -/
def invocation (lookup? : String → Option String) (texts : List String) :
    Except UsageError Invocation :=
  invocationFrom lookup? {} texts

end SentinelWrap.CommandLine
