import SentinelWrap.Command.Failure
import SentinelWrap.Config.Load
import SentinelWrap.Report.Format
import SentinelWrap.Walk
import SentinelWrap.Wrapping.Analysis
/-! Checking files: find them, analyze each, and fix what was found if asked to. -/
namespace SentinelWrap.Command

structure CheckSettings where
  paths : List Path := []
  fix : Bool := false
  format : Option OutputFormat := none
  config : Option Path := none
  jobs : Option Nat := none
  noTests : Bool := false
  showFixes : Bool := false
  plain : Bool := false
deriving DecidableEq, Repr

/-- What is left to do for a file after it was read. -/
inductive Outcome
  | done (report : Report)
  /-- The report holds once the new text is written. -/
  | replace (report : Report) (text : String)
deriving DecidableEq, Repr

def readError (path : Path) (cause : IoError) : Error :=
  .fileSystem "Failed to read file" (some path) (some cause)

def writeError (path : Path) (cause : IoError) : Error :=
  .fileSystem "Failed to write file" (some path) (some cause)

/-- What the text of a file comes to. Files without findings are never written to. -/
def examineText (path : Path) (fix : Bool) (text : String) : Except Error Outcome := do
  let file ← SourceFile.parse path text
  let found ← Wrapping.analyze file
  if fix && !found.isEmpty then
    return .replace { path, diagnostics := found, fixed := true }
      (← Diagnostic.applyFixes text found)
  else return .done { path, diagnostics := found }

/-- Whatever goes wrong with a file stays in its report. -/
def examine (path : Path) (fix : Bool) (content : Except IoError String) : Outcome :=
  match content with
  | .error cause => .done (.failed path (readError path cause))
  | .ok text =>
    match examineText path fix text with
    | .ok outcome => outcome
    | .error error => .done (.failed path error)

/-- Brings a file's outcome to an end. -/
def Outcome.finish (path : Path) (fs : FileSystem) : Outcome → Report × FileSystem
  | done report => (report, fs)
  | replace report text =>
    match fs.write path text with
    | .ok fs => (report, fs)
    | .error cause => (.failed path (writeError path cause), fs)

def checkFile (fix : Bool) (fs : FileSystem) (path : Path) : Report × FileSystem :=
  (examine path fix (fs.read path)).finish path fs

def checkFiles (fix : Bool) : FileSystem → List Path → List Report × FileSystem
  | fs, [] => ([], fs)
  | fs, path :: paths =>
    let (report, fs) := checkFile fix fs path
    let (reports, fs) := checkFiles fix fs paths
    (report :: reports, fs)

/-- Without paths the current directory is checked. -/
def CheckSettings.roots (settings : CheckSettings) : List Path :=
  if settings.paths.isEmpty then [⟨"."⟩] else settings.paths

def CheckSettings.selection (settings : CheckSettings) (config : Config) : Walk.Selection where
  ignored := config.ignored
  includeTests := !settings.noTests && config.includeTests

/-- The reports of all files, in the order of their paths. -/
def runCheck (fs : FileSystem) (settings : CheckSettings) (config : Config) :
    Except Failure (List Report × FileSystem) :=
  match Walk.projectFiles fs (settings.selection config) settings.roots with
  | .error error => throw (.during "discovering Go files" error)
  | .ok paths =>
    let (reports, fs) := checkFiles settings.fix fs paths
    return (reports.mergeSort fun a b => a.path.le b.path, fs)

/-- What the process is started with besides its arguments. -/
structure Environment where
  lookup? : String → Option String
  isTerminal : Bool

/-- The configuration may turn color off where nothing else was asked for. -/
def colorMode (settings : CheckSettings) (config : Config) (environment : Environment) :
    ColorMode :=
  if settings.plain then .never
  else
    match ColorMode.ofEnvironment environment.lookup?, config.useColor with
    | .auto, some false => .never
    | mode, _ => mode

def outputFormat (settings : CheckSettings) (config : Config) : OutputFormat :=
  (settings.format <|> config.format.bind OutputFormat.ofName?).getD .text

structure CheckResult where
  exitCode : Nat
  output : String
  fileSystem : FileSystem

def CheckSettings.loadConfig (settings : CheckSettings) (fs : FileSystem) :
    Except Failure Config :=
  match settings.config with
  | none => return Config.load fs
  | some path =>
    match Config.loadFrom fs path with
    | .ok config => return config
    | .error error => throw (.during s!"loading {path.text}" error)

def check (fs : FileSystem) (settings : CheckSettings) (environment : Environment) :
    Except Failure CheckResult := do
  let config ← settings.loadConfig fs
  let (reports, fs) ← runCheck fs settings config
  let color := (colorMode settings config environment).isOn environment.isTerminal
  return {
    exitCode := Report.exitCode settings.fix reports
    output := Report.renderAll (outputFormat settings config) ⟨color, settings.showFixes⟩ reports
    fileSystem := fs }

end SentinelWrap.Command
