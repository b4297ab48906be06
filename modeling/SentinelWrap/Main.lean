import SentinelWrap.CommandLine.Run
/-!
The program. It takes in the part of the file system that the arguments reach, runs, and writes back
the files that changed.
-/
namespace SentinelWrap.Program

/-- The text of the absolute path of a place. -/
def pathText (place : Location) : String := (FileSystem.pathOf place).text

def placeOf (text : String) : Location := (text.splitOn "/").filter (· != "")

/-- The entry at a place, if something stands there. -/
def entryAt (place : Location) : IO (List (Location × Entry)) := do
  try
    let path ← IO.FS.realPath (pathText place)
    if ← path.isDir then return [(place, .directory)]
    return [(place, .file (← IO.FS.readBinFile path) true)]
  catch _ => return []

/-- Whether the walk looks into a file of this name. -/
def isRead (name : String) : Bool :=
  Language.ofPath? ⟨name⟩ == some .go || name == ".ignore" || name == ".gitignore"

/-- What stands below a directory, except where the walk does not go. -/
partial def below (place : Location) : IO (List (Location × Entry)) := do
  let directory ← IO.FS.realPath (pathText place)
  let mut entries := []
  for child in ← directory.readDir do
    let next := place ++ [child.fileName]
    if ← child.path.isDir then
      entries := entries ++ [(next, .directory)]
      unless Walk.isSkipped child.fileName do entries := entries ++ (← below next)
    else if isRead child.fileName then entries := entries ++ (← entryAt next)
  return entries

/-- A place with everything below it. -/
def everythingAt (place : Location) : IO (List (Location × Entry)) := do
  match ← entryAt place with
  | [(place, .directory)] => return (place, .directory) :: (← below place)
  | entries => return entries

/-- A directory with those of its files that matter for what is below it. -/
def guides (place : Location) : IO (List (Location × Entry)) := do
  let own ← [[], [".ignore"], [".gitignore"], [".git"], [".jj"], [".git", "info", "exclude"],
    [Config.fileName]].mapM fun names => entryAt (place ++ names)
  return own.flatten

/-- The places that a path passes on its way. -/
def passed (start : Location) (path : Path) : List Location :=
  let first := if path.isAbsolute then [] else start
  let next (place : Location) (piece : List Char) : Location :=
    if Path.isIdle piece then place
    else if piece == ['.', '.'] then place.dropLast
    else place ++ [String.ofList piece]
  (path.pieces.foldl (fun places piece => next (places.headD first) piece :: places) [first])

/-- The part of the file system that a path reaches. -/
def reached (start : Location) (path : Path) : IO (List (Location × Entry)) := do
  let places := passed start path
  let target := places.headD start
  let onTheWay ← places.mapM entryAt
  let around ← (target :: IgnoreFiles.above target).mapM guides
  return onTheWay.flatten ++ around.flatten ++ (← everythingAt target)

def addMissing (entries : List (Location × Entry)) : List (Location × Entry) :=
  entries.foldl (fun known entry =>
    if (FileSystem.find? entry.1 known).isSome then known else known ++ [entry]) []

/-- The paths that a run begins at. -/
def roots : CommandLine.Invocation → List Path
  | .check _ settings => settings.roots ++ settings.config.toList
  | .init .. => [⟨"."⟩]

def load (start : Location) (paths : List Path) : IO FileSystem := do
  let around ← (start :: IgnoreFiles.above start).mapM guides
  let entries ← paths.mapM (reached start)
  return ⟨addMissing (around.flatten ++ entries.flatten), start⟩

/-- Writes the files that a run changed. -/
def save (before after : FileSystem) : IO Unit := do
  for (place, entry) in after.entries do
    if let .file content _ := entry then
      if FileSystem.find? place before.entries != some entry then
        IO.FS.writeBinFile (pathText place) content

def variableNames : List String := ["NO_COLOR", "CLICOLOR", "CLICOLOR_FORCE", "ERRWRAP_JOBS"]

def environment : IO Command.Environment := do
  let values ← variableNames.mapM fun name => return (name, ← IO.getEnv name)
  let isTerminal ← (← IO.getStdout).isTty
  return ⟨fun name => (values.lookup name).join, isTerminal⟩

end SentinelWrap.Program

open SentinelWrap in
def main (arguments : List String) : IO UInt32 := do
  let environment ← Program.environment
  let start := Program.placeOf (← IO.currentDir).toString
  let paths := match CommandLine.invocation environment.lookup? arguments with
    | .ok invocation => Program.roots invocation
    | .error _ => []
  let fs ← Program.load start paths
  let result := CommandLine.run fs environment arguments
  Program.save fs result.fileSystem
  IO.print result.output
  unless result.complaint.isEmpty do IO.eprintln result.complaint
  return result.exitCode.toUInt32
