/-! Terminal styles: when they are used, and the escape sequences they write. -/
namespace SentinelWrap

inductive ColorMode
  | auto
  | always
  | never
deriving DecidableEq, Repr

namespace ColorMode

/-- The mode that environment variables ask for. The last of the three that applies wins. -/
def ofEnvironment (lookup? : String → Option String) : ColorMode :=
  if lookup? "CLICOLOR_FORCE" == some "1" then .always
  else if lookup? "CLICOLOR" == some "0" then .never
  else if (lookup? "NO_COLOR").isSome then .never
  else .auto

/-- Left to itself, color is for terminals. -/
def isOn (isTerminal : Bool) : ColorMode → Bool
  | auto => isTerminal
  | always => true
  | never => false

end ColorMode

inductive Style
  | error
  | warning
  | success
  | location
  | dim
deriving DecidableEq, Repr

namespace Style

def escape : Style → List Char
  | error => "\x1b[1;31m".toList
  | warning => "\x1b[33m".toList
  | success => "\x1b[32m".toList
  | location => "\x1b[1m".toList
  | dim => "\x1b[2m".toList

def reset : List Char := "\x1b[0m".toList

/-- Takes the style up again after every reset inside a text. -/
def resume (style : Style) : List Char → List Char
  | [] => []
  | '\x1b' :: '[' :: '0' :: 'm' :: rest => reset ++ style.escape ++ resume style rest
  | c :: rest => c :: resume style rest

def paint (style : Style) (color : Bool) (text : String) : String :=
  if color then String.ofList (style.escape ++ style.resume text.toList ++ reset) else text

end Style
end SentinelWrap
