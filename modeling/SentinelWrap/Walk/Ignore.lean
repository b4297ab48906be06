import SentinelWrap.FileSystem
import SentinelWrap.Walk.IgnoreRule
/-!
What ignore files say about a place. Those of nearer directories come first, and `.ignore` files
come before those of the repository, which reach no further up than its root.
-/
namespace SentinelWrap

/-- The ignore files of one directory. -/
structure IgnoreFiles where
  own : List IgnoreRule
  repository : List IgnoreRule
  exclude : List IgnoreRule
  isRepository : Bool

namespace IgnoreFiles

def rulesAt (fs : FileSystem) (place : Location) : List IgnoreRule :=
  match fs.entry? place with
  | some (.file content _) => IgnoreRule.ofContent content
  | _ => []

def ofDirectory (fs : FileSystem) (place : Location) : IgnoreFiles where
  own := rulesAt fs (place ++ [".ignore"])
  repository := rulesAt fs (place ++ [".gitignore"])
  exclude := rulesAt fs (place ++ [".git", "info", "exclude"])
  isRepository := [".git", ".jj"].any fun name => (fs.entry? (place ++ [name])).isSome

/-- The path of a place below a directory. -/
def pathBelow (directory place : Location) : List UInt8 :=
  ("/".intercalate (place.drop directory.length)).toUTF8.toList

/-- The rule about a place that the files of one kind give, nearest directory first. -/
def nearest? (place : Location) (isDirectory : Bool) (rules : IgnoreFiles → List IgnoreRule)
    (files : List (Location × IgnoreFiles)) : Option IgnoreRule :=
  files.findSome? fun (directory, files) =>
    IgnoreRule.last? (rules files) (pathBelow directory place) isDirectory

/-- The directories up to the first that is a repository; none of them counts without one. -/
def inRepository : List (Location × IgnoreFiles) → Option (List (Location × IgnoreFiles))
  | [] => none
  | file :: files =>
    if file.2.isRepository then some [file] else (inRepository files).map (file :: ·)

/-- The directories above a place, nearest first. -/
def above (place : Location) : List Location :=
  (List.range place.length).reverse.map place.take

def deciding? (fs : FileSystem) (place : Location) (isDirectory : Bool) : Option IgnoreRule :=
  let files := (above place).map fun directory => (directory, ofDirectory fs directory)
  let versioned := (inRepository files).getD []
  nearest? place isDirectory own files <|> nearest? place isDirectory repository versioned <|>
    nearest? place isDirectory exclude versioned

def isIgnored (fs : FileSystem) (place : Location) (isDirectory : Bool) : Bool :=
  match deciding? fs place isDirectory with
  | some rule => !rule.keeps
  | none => false

end IgnoreFiles
end SentinelWrap
