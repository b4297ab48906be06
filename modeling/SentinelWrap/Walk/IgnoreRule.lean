import SentinelWrap.Text.Pieces
import SentinelWrap.Text.Whitespace
/-!
Rules of ignore files. A rule is a pattern over the bytes of a path below the file's directory, in
which wildcards do not reach across separators; the last rule that matches decides.
-/
namespace SentinelWrap

namespace IgnoreRule

/-- The bytes from the first to the second. -/
abbrev ByteRange := UInt8 × UInt8

inductive Token
  | byte (b : UInt8)
  | anyByte
  | anyName
  /-- Any number of directories at the front. -/
  | leadingDirectories
  /-- Any number of directories between two separators. -/
  | innerDirectories
  /-- Everything below a directory. -/
  | everythingBelow
  | set (negated : Bool) (ranges : List ByteRange)
  | choice (branches : List (List Token))

def separator : UInt8 := 0x2f

/-- A text and what is left of it after dropping bytes of a name. -/
def afterName : List UInt8 → List (List UInt8)
  | [] => [[]]
  | b :: bs => (b :: bs) :: if b == separator then [] else afterName bs

/-- What is left of a text after each separator. -/
def afterSeparators : List UInt8 → List (List UInt8)
  | [] => []
  | b :: bs => if b == separator then bs :: afterSeparators bs else afterSeparators bs

def suffixes : List UInt8 → List (List UInt8)
  | [] => [[]]
  | b :: bs => (b :: bs) :: suffixes bs

/-- One byte that satisfies a condition. -/
def one (p : UInt8 → Bool) (k : List UInt8 → Bool) : List UInt8 → Bool
  | [] => false
  | b :: bs => p b && k bs

mutual

/-- The token matches the front of a text, and `k` holds of what is left. -/
def Token.run (k : List UInt8 → Bool) : Token → List UInt8 → Bool
  | .byte b, bs => one (· == b) k bs
  | .anyByte, bs => one (· != separator) k bs
  | .anyName, bs => (afterName bs).any k
  | .leadingDirectories, bs => k bs || (afterSeparators bs).any k
  | .innerDirectories, bs => one (· == separator) (fun bs => k bs || (afterSeparators bs).any k) bs
  | .everythingBelow, bs => one (· == separator) (fun bs => (suffixes bs).any k) bs
  | .set negated ranges, bs =>
    one (fun b => ranges.any (fun (first, last) => first ≤ b && b ≤ last) != negated) k bs
  | .choice branches, bs => branches.isEmpty && k bs || runAny k branches bs

def runAll (k : List UInt8 → Bool) : List Token → List UInt8 → Bool
  | [], bs => k bs
  | t :: ts, bs => t.run (runAll k ts) bs

def runAny (k : List UInt8 → Bool) : List (List Token) → List UInt8 → Bool
  | [], _ => false
  | branch :: branches, bs => runAll k branch bs || runAny k branches bs

end

/-- The whole text matches. Two stars alone match everything. -/
def isMatch (tokens : List Token) (text : List UInt8) : Bool :=
  match tokens with
  | [.leadingDirectories] => true
  | tokens => runAll List.isEmpty tokens text

def bytes (c : Char) : List UInt8 := c.toString.toUTF8.toList

def literal (c : Char) : List Token := (bytes c).map .byte

/-- The bytes of a range of characters. -/
def byteRanges : Char × Char → List ByteRange
  | (first, last) =>
    if first = last then (bytes first).map fun b => (b, b)
    else
      match (bytes first).reverse, bytes last with
      | low :: before, high :: after =>
        (before.reverse.map fun b => (b, b)) ++ (low, high) :: after.map fun b => (b, b)
      | _, _ => []

/-- What a bracket turns out to open. -/
inductive Brackets
  | set (ranges : List (Char × Char)) (rest : List Char)
  /-- A range that runs backwards. -/
  | malformed
  /-- No bracket closes it. -/
  | unclosed

/-- The rest of a set in brackets: whether its first character is still to come, the ranges so far
in reverse, and whether a dash asks for the end of the last one. -/
def brackets : Bool → List (Char × Char) → Bool → List Char → Brackets
  | _, _, _, [] => .unclosed
  | isFirst, ranges, inRange, c :: rest =>
    if c == ']' && !isFirst then
      .set (if inRange then ('-', '-') :: ranges else ranges).reverse rest
    else if c == '-' && !isFirst && !inRange then brackets false ranges true rest
    else if inRange then
      match ranges with
      | (low, _) :: earlier =>
        if low ≤ c then brackets false ((low, c) :: earlier) false rest else .malformed
      | [] => .malformed
    else brackets false ((c, c) :: ranges) false rest

/-- A set from its opening bracket on. A bracket that is never closed stands for itself. -/
def set? (cs : List Char) : Option (Token × List Char) :=
  let (negated, body) := match cs with
    | '!' :: rest | '^' :: rest => (true, rest)
    | cs => (false, cs)
  match brackets true [] false body with
  | .set ranges rest => some (.set negated (ranges.flatMap byteRanges), rest)
  | .malformed => none
  | .unclosed => some (.byte 0x5b, cs)

/-- Two stars, by what stands around them: the new tokens in reverse, and what follows. -/
def stars (inside : Bool) (previous : Option Char) (read : List Token) (rest : List Char) :
    List Token × List Char :=
  let plain := (.anyName :: .anyName :: read, rest)
  match read, rest with
  | [], [] => ([.leadingDirectories], [])
  | [], '/' :: rest => ([.leadingDirectories], rest)
  | [], _ => plain
  | last :: before, rest =>
    let isAfterBreak := previous == some '/' ||
      inside && (previous == some ',' || previous == some '\x7b')
    if !isAfterBreak then plain
    else
      let wide (token : Token) := match last with
        | .leadingDirectories => .leadingDirectories :: before
        | .everythingBelow => .everythingBelow :: before
        | _ => token :: before
      match rest with
      | [] => (wide .everythingBelow, [])
      | '/' :: rest => (wide .innerDirectories, rest)
      | c :: _ =>
        if inside && (c == ',' || c == '\x7d') then (wide .everythingBelow, rest) else plain

mutual

/-- The tokens up to the end, or inside braces up to a comma or the closing brace. One unit of fuel
is spent on every character. -/
def sequence? : Nat → Bool → Option Char → List Token → List Char →
    Option (List Token × List Char)
  | _, _, _, read, [] => some (read.reverse, [])
  | 0, _, _, _, _ => none
  | fuel + 1, inside, previous, read, c :: rest =>
    match c with
    | '?' => sequence? fuel inside (some c) (.anyByte :: read) rest
    | '*' =>
      match rest with
      | '*' :: rest =>
        let (read, after) := stars inside previous read rest
        let last := if after.length < rest.length then '/' else '*'
        sequence? fuel inside (some last) read after
      | rest => sequence? fuel inside (some c) (.anyName :: read) rest
    | '[' => do
      let (token, rest) ← set? rest
      sequence? fuel inside none (token :: read) rest
    | '\x7b' => do
      let (branches, rest) ← branches? fuel '\x7b' rest
      sequence? fuel inside (some '\x7d') (.choice (branches.filter (!·.isEmpty)) :: read) rest
    | '\x7d' => if inside then some (read.reverse, c :: rest) else none
    | ',' =>
      if inside then some (read.reverse, c :: rest)
      else sequence? fuel inside (some c) ((literal c).reverse ++ read) rest
    | '\\' =>
      match rest with
      | [] => none
      | c :: rest => sequence? fuel inside (some c) ((literal c).reverse ++ read) rest
    | c => sequence? fuel inside (some c) ((literal c).reverse ++ read) rest

/-- The branches of a choice after an opening brace or a comma. -/
def branches? : Nat → Char → List Char → Option (List (List Token) × List Char)
  | 0, _, _ => none
  | fuel + 1, previous, cs => do
    let (branch, rest) ← sequence? fuel true (some previous) [] cs
    match rest with
    | ',' :: rest =>
      let (branches, rest) ← branches? fuel ',' rest
      return (branch :: branches, rest)
    | '\x7d' :: rest => return ([branch], rest)
    | _ => none

end

def tokens? (pattern : List Char) : Option (List Token) := do
  match ← sequence? (2 * pattern.length) false none [] pattern with
  | (tokens, []) => return tokens
  | _ => none

end IgnoreRule

structure IgnoreRule where
  tokens : List IgnoreRule.Token
  /-- Takes back what earlier rules say. -/
  keeps : Bool
  onlyDirectories : Bool

namespace IgnoreRule

def endsWith (ending : String) (cs : List Char) : Bool := ending.toList.isSuffixOf cs

/-- A pattern without a separator, other than at its end, matches at any depth. -/
def anywhere (isAnchored : Bool) (cs : List Char) : List Char :=
  if isAnchored || cs.contains '/' || cs == ['*', '*'] then cs else ['*', '*', '/'] ++ cs

/-- What is below a directory does not include the directory. -/
def below (cs : List Char) : List Char :=
  if endsWith "/**" cs then cs ++ ['/', '*'] else cs

/-- The rule of a line; comments, blank lines and malformed patterns are none. -/
def ofLine? (line : List Char) : Option IgnoreRule :=
  if line.head? == some '#' then none
  else
    let line := if endsWith "\\ " line then line else Text.trimEnd Text.isWhitespace line
    let (keeps, isAnchored, cs) := match line with
      | '\\' :: '!' :: rest => (false, false, '!' :: rest)
      | '\\' :: '#' :: rest => (false, false, '#' :: rest)
      | '!' :: '/' :: rest => (true, true, rest)
      | '!' :: rest => (true, false, rest)
      | '/' :: rest => (false, true, rest)
      | rest => (false, false, rest)
    let onlyDirectories := cs.getLast? == some '/'
    let cs :=
      if onlyDirectories then
        let cs := cs.dropLast
        if cs.getLast? == some '\\' then cs.dropLast else cs
      else cs
    if line.isEmpty then none
    else
      (tokens? (below (anywhere isAnchored cs))).map fun tokens =>
        { tokens, keeps, onlyDirectories }

/-- The lines of a file; a byte order mark at its front and carriage returns at line ends are
dropped, and the first line that is no text ends the file. -/
def lines (content : ByteArray) : List (List Char) :=
  let pieces := content.toList.splitOn 0x0a
  let texts := pieces.map fun bytes => String.fromUTF8? ⟨bytes.toArray⟩
  let chars := (texts.takeWhile Option.isSome).filterMap fun text => text.map String.toList
  let chars := chars.map fun cs => if cs.getLast? == some '\r' then cs.dropLast else cs
  match chars with
  | first :: rest => first.dropWhile (· == '\uFEFF') :: rest
  | [] => []

def ofContent (content : ByteArray) : List IgnoreRule := (lines content).filterMap ofLine?

/-- The rule that decides about a path. -/
def last? (rules : List IgnoreRule) (path : List UInt8) (isDirectory : Bool) :
    Option IgnoreRule :=
  rules.reverse.find? fun rule =>
    (isDirectory || !rule.onlyDirectories) && isMatch rule.tokens path

end IgnoreRule
end SentinelWrap
