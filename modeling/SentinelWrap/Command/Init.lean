import SentinelWrap.Command.Check
/-! Starting a project: the default configuration as a file. -/
namespace SentinelWrap.Command

def defaultConfig : String := "# errwrap configuration

[ignore]
patterns = [
    \"vendor/**\",
    \"**/*.pb.go\",
]

[analysis]
include_tests = true
# 0 = one worker per core, 1 = sequential
jobs = 0

[output]
default_format = \"text\"
use_color = true
"

/-- Writes the default configuration into a directory. A file that is there is kept, unless told
otherwise. -/
def initIn (fs : FileSystem) (directory : Path) (force : Bool) :
    Except Failure (Path × FileSystem) :=
  let path := directory.join ⟨Config.fileName⟩
  if fs.exists? path && !force then
    throw ⟨["Configuration file already exists. Use --force to overwrite."]⟩
  else
    match fs.write path defaultConfig with
    | .ok fs => return (path, fs)
    | .error cause => throw (.ofError (writeError path cause))

/-- The text to print, and the file system after writing. -/
def init (fs : FileSystem) (force : Bool) : Except Failure (String × FileSystem) := do
  let (path, fs) ← initIn fs ⟨"."⟩ force
  return (s!"Created {path.text} configuration file\n", fs)

end SentinelWrap.Command
