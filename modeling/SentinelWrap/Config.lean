import SentinelWrap.Error
import SentinelWrap.Glob
import SentinelWrap.Toml.Document
/-! The configuration of a project, and how it is read from its file. -/
namespace SentinelWrap

structure Config where
  /-- Files that match one of these patterns are left out. -/
  ignored : List String := []
  includeTests : Bool := true
  /-- How many workers; zero stands for one a core. -/
  jobs : Nat := 0
  format : Option String := none
  useColor : Option Bool := none
deriving DecidableEq, Repr

namespace Config

def fileName : String := ".errwrap.toml"

/-- A part of the configuration: settings by name, or only their values in a fixed order. -/
inductive Section
  | named (entries : List (String × Toml.Value))
  | listed (items : List Toml.Value)

namespace Section

def ofValue? : Toml.Value → Option Section
  | .table entries => some (.named entries)
  | .datetime => some (.named [])
  | .array items => some (.listed items)
  | _ => none

def get? (place : Nat) (name : String) : Section → Option Toml.Value
  | named entries => Toml.Value.lookup name entries
  | listed items => items[place]?

/-- A setting that may be missing, but that has to be of the right kind. -/
def optional? {α : Type} (read : Toml.Value → Option α) (place : Nat) (name : String)
    (part : Section) : Option (Option α) :=
  match part.get? place name with
  | none => some none
  | some value => (read value).map some

end Section

/-- A part that may be missing, read by its settings. -/
def part? {α : Type} (read : Section → Option α) (missing : α) (name : String)
    (entries : List (String × Toml.Value)) : Option α :=
  match Toml.Value.lookup name entries with
  | none => some missing
  | some value => (Section.ofValue? value).bind read

def ignored? (part : Section) : Option (List String) := do
  (← part.get? 0 "patterns").strings?

def analysis? (part : Section) : Option (Option Bool × Option Nat) := do
  let includeTests ← part.optional? Toml.Value.boolean? 0 "include_tests"
  let jobs ← part.optional? Toml.Value.word? 1 "jobs"
  return (includeTests, jobs)

/-- Where settings are only listed, the format cannot be missing. -/
def output? (part : Section) : Option (Option String × Option Bool) := do
  let format ← part.optional? Toml.Value.string? 0 "default_format"
  let useColor ← part.optional? Toml.Value.boolean? 1 "use_color"
  match part, format with
  | .listed _, none => none
  | _, _ => return (format, useColor)

/-- Unknown settings are not looked at. -/
def ofEntries? (entries : List (String × Toml.Value)) : Option Config := do
  let ignored ← part? ignored? [] "ignore" entries
  let (includeTests, jobs) ← part? analysis? (none, none) "analysis" entries
  let (format, useColor) ← part? output? (none, none) "output" entries
  return { ignored, includeTests := includeTests.getD true, jobs := jobs.getD 0, format, useColor }

/-- The first pattern that is none. -/
def checkPatterns : List String → Except Error Unit
  | [] => return ()
  | pattern :: patterns =>
    match Glob.parse pattern with
    | .ok _ => checkPatterns patterns
    | .error fault =>
      throw (.configuration
        ("Invalid ignore pattern " ++ Text.quote pattern ++ ": " ++ fault.message))

def checkFormat : Option String → Except Error Unit
  | none | some "text" | some "json" => return ()
  | some format =>
    throw (.configuration
      ("Unknown output format " ++ Text.quote format ++ " (expected \"text\" or \"json\")"))

def parse (text : String) : Except Error Config := do
  match (Toml.parse? text).bind ofEntries? with
  | none => throw (.configuration ("Failed to parse " ++ fileName ++ ": invalid TOML"))
  | some config =>
    checkPatterns config.ignored
    checkFormat config.format
    return config

end Config
end SentinelWrap
