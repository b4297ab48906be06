import SentinelWrap.Config
import SentinelWrap.FileSystem
/-! Where the configuration of a run comes from. -/
namespace SentinelWrap.Config

/-- How many directories are searched, the current one included. -/
def searchLimit : Nat := 10

/-- A file that was named has to be there and to be valid. -/
def loadFrom (fs : FileSystem) (path : Path) : Except Error Config :=
  match fs.read path with
  | .ok text => parse text
  | .error cause => throw (.fileSystem "Failed to read config file" (some path) (some cause))

/-- The places a configuration file is looked for, nearest first. -/
def candidates (fs : FileSystem) : List Path :=
  (Path.ancestors searchLimit (FileSystem.pathOf fs.current)).map (·.join ⟨fileName⟩)

/-- The nearest configuration file that can be read and is valid, or else the defaults. -/
def load (fs : FileSystem) : Config :=
  ((candidates fs).findSome? fun path => (loadFrom fs path).toOption).getD {}

end SentinelWrap.Config
