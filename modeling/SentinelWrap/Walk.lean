import SentinelWrap.Glob
import SentinelWrap.SourceFile
import SentinelWrap.Walk.Ignore
/-! The Go files of a project. -/
namespace SentinelWrap.Walk

/-- Which files of a directory count. -/
structure Selection where
  /-- Patterns of files to leave out; malformed ones are not looked at. -/
  ignored : List String := []
  includeTests : Bool := true

/-- Directories that are not entered, unless the walk begins at them. -/
def isSkipped (name : String) : Bool :=
  name == "vendor" || name == "testdata" ||
    name.toList.head? == some '.' || name.toList.head? == some '_'

def isTest (path : Path) : Bool :=
  match path.fileName? with
  | some name => "_test.go".toList.isSuffixOf name.toList
  | none => false

/-- A pattern matches the whole path or the path below the root. -/
def matchesPattern (path below : String) (pattern : String) : Bool :=
  match Glob.parse pattern with
  | .ok glob => glob.isMatch path || glob.isMatch below
  | .error _ => false

def Selection.accepts (selection : Selection) (path below : Path) : Bool :=
  Language.ofPath? path == some .go && (selection.includeTests || !isTest path) &&
    !selection.ignored.any (matchesPattern path.text below.text)

/-- The walk reaches a file below the root: no directory on the way is skipped, and nothing on the
way is ignored. -/
def isReached (fs : FileSystem) (root : Location) (below : List String) : Bool :=
  below.dropLast.all (fun name => !isSkipped name) &&
    (List.range (below.length - 1)).all (fun n =>
      !IgnoreFiles.isIgnored fs (root ++ below.take (n + 1)) true) &&
    !IgnoreFiles.isIgnored fs (root ++ below) false

/-- The names of a file below a directory. -/
def below? (root : Location) : Location × Entry → Option (List String)
  | (place, .file ..) =>
    if root.isPrefixOf place && root != place then some (place.drop root.length) else none
  | (_, .directory) => none

/-- The names of the files below a directory that are reached, in the order of their entries. -/
def reached (fs : FileSystem) (root : Location) : List (List String) :=
  (fs.entries.filterMap (below? root)).filter (isReached fs root)

/-- The path of names below a root, if the file is to be listed. -/
def pick? (selection : Selection) (root : Path) (names : List String) : Option Path :=
  let below : Path := ⟨"/".intercalate names⟩
  if selection.accepts (root.join below) below then some (root.join below) else none

/-- The files below a directory, by the path that leads to it, in the order of their entries. -/
def listed (fs : FileSystem) (selection : Selection) (path : Path) (root : Location) : List Path :=
  (reached fs root).filterMap (pick? selection path)

def filesBelow (fs : FileSystem) (selection : Selection) (path : Path) (root : Location) :
    List Path :=
  (listed fs selection path root).mergeSort Path.le

/-- A root that is a file stands for itself, whatever the selection. -/
def files (fs : FileSystem) (selection : Selection) (root : Path) : Except Error (List Path) :=
  match fs.status root, fs.resolve root with
  | .ok (.file ..), _ => return [root]
  | .ok .directory, .ok place => return filesBelow fs selection root place
  | .error cause, _ => throw (.walk root cause)
  | _, .error cause => throw (.walk root cause)

/-- Keeps the first spelling of every path. -/
def distinct : List Path → List Path → List Path
  | _, [] => []
  | seen, path :: paths =>
    if seen.any path.same then distinct seen paths else path :: distinct (path :: seen) paths

/-- The files below every root, in the order of the roots. -/
def projectFiles (fs : FileSystem) (selection : Selection) (roots : List Path) :
    Except Error (List Path) :=
  return distinct [] (← roots.mapM (files fs selection)).flatten

end SentinelWrap.Walk
