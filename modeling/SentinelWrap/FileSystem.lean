import SentinelWrap.Error
/-!
A file system as a value: what stands at each place, and the directory that relative paths begin
at. There are no links, so a place has one name.
-/
namespace SentinelWrap

/-- The names on the way down from the root. -/
abbrev Location := List String

inductive Entry
  | file (content : ByteArray) (writable : Bool)
  | directory

instance : DecidableEq Entry
  | .directory, .directory => .isTrue rfl
  | .directory, .file .. => .isFalse nofun
  | .file .., .directory => .isFalse nofun
  | .file ⟨a⟩ v, .file ⟨b⟩ w => decidable_of_iff (a = b ∧ v = w) (by simp)

structure FileSystem where
  /-- Directories above an entry need none of their own. -/
  entries : List (Location × Entry)
  /-- Relative paths begin here. -/
  current : Location := []
deriving DecidableEq

namespace FileSystem

def find? (place : Location) : List (Location × Entry) → Option Entry
  | [] => none
  | (l, entry) :: rest => if l = place then some entry else find? place rest

/-- Replaces the entry at a place, or adds it. -/
def put (place : Location) (entry : Entry) : List (Location × Entry) → List (Location × Entry)
  | [] => [(place, entry)]
  | (l, old) :: rest =>
    if l = place then (l, entry) :: rest else (l, old) :: put place entry rest

/-- The place has entries below it. -/
def isAbove (place : Location) (entry : Location × Entry) : Bool :=
  place.isPrefixOf entry.1 && place != entry.1

def entry? (fs : FileSystem) (place : Location) : Option Entry :=
  match find? place fs.entries with
  | some entry => some entry
  | none => if place = [] || fs.entries.any (isAbove place) then some .directory else none

/-- One step along a path, from a directory. -/
def step (fs : FileSystem) (place : Location) (piece : List Char) : Except IoError Location :=
  match fs.entry? place with
  | none => throw .notFound
  | some (.file ..) => throw .notDirectory
  | some .directory =>
    if Path.isIdle piece then return place
    else if piece == ['.', '.'] then return place.dropLast
    else return place ++ [String.ofList piece]

/-- The place a path leads to. Nothing need stand there, but what is above has to be a directory. -/
def resolve (fs : FileSystem) (path : Path) : Except IoError Location :=
  if path.text.isEmpty then throw .notFound
  else path.pieces.foldlM fs.step (if path.isAbsolute then [] else fs.current)

def status (fs : FileSystem) (path : Path) : Except IoError Entry := do
  match fs.entry? (← fs.resolve path) with
  | some entry => return entry
  | none => throw .notFound

def exists? (fs : FileSystem) (path : Path) : Bool := (fs.status path).isOk

def readBytes (fs : FileSystem) (path : Path) : Except IoError ByteArray := do
  match ← fs.status path with
  | .file content _ => return content
  | .directory => throw .isDirectory

def read (fs : FileSystem) (path : Path) : Except IoError String := do
  match String.fromUTF8? (← fs.readBytes path) with
  | some text => return text
  | none => throw .invalidText

/-- A write replaces the whole content or leaves everything as it was. -/
def write (fs : FileSystem) (path : Path) (text : String) : Except IoError FileSystem := do
  let place ← fs.resolve path
  match fs.entry? place with
  | some .directory => throw .isDirectory
  | some (.file _ false) => throw .notPermitted
  | _ => return { fs with entries := put place (.file text.toUTF8 true) fs.entries }

def changeDirectory (fs : FileSystem) (path : Path) : Except IoError FileSystem := do
  let place ← fs.resolve path
  match fs.entry? place with
  | some .directory => return { fs with current := place }
  | some (.file ..) => throw .notDirectory
  | none => throw .notFound

/-- The absolute path of a place. -/
def pathOf (place : Location) : Path := ⟨"/" ++ "/".intercalate place⟩

end FileSystem
end SentinelWrap
