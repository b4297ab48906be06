/-! JSON values and their text, one item a line and two spaces a level. -/
namespace SentinelWrap

/-- The values that reports are made of. Fields of an object stay in order. -/
inductive JsonValue
  | bool (value : Bool)
  | number (value : Nat)
  | string (value : String)
  | array (items : List JsonValue)
  | object (fields : List (String × JsonValue))

namespace JsonValue

/-- Only quotes, backslashes and control characters are escaped. -/
def escapeChar (c : Char) : List Char :=
  match c with
  | '"' => ['\\', '"']
  | '\\' => ['\\', '\\']
  | '\x08' => ['\\', 'b']
  | '\x0c' => ['\\', 'f']
  | '\n' => ['\\', 'n']
  | '\r' => ['\\', 'r']
  | '\t' => ['\\', 't']
  | c =>
    if c.toNat < 0x20 then
      ['\\', 'u', '0', '0', Nat.digitChar (c.toNat / 16), Nat.digitChar (c.toNat % 16)]
    else [c]

def quote (text : String) : String :=
  String.ofList ('"' :: text.toList.flatMap escapeChar ++ ['"'])

def newLine (depth : Nat) : String := String.ofList ('\n' :: List.replicate (2 * depth) ' ')

/-- Items between two brackets, each on a line of its own. -/
def block (depth : Nat) (opening closing : String) : List String → String
  | [] => opening ++ closing
  | items =>
    let lead := newLine (depth + 1)
    opening ++ lead ++ ("," ++ lead).intercalate items ++ newLine depth ++ closing

mutual

def render (depth : Nat) : JsonValue → String
  | bool true => "true"
  | bool false => "false"
  | number n => toString n
  | string text => quote text
  | array items => block depth "[" "]" (renderItems (depth + 1) items)
  | object fields => block depth "\x7b" "\x7d" (renderFields (depth + 1) fields)

def renderItems (depth : Nat) : List JsonValue → List String
  | [] => []
  | item :: items => item.render depth :: renderItems depth items

def renderFields (depth : Nat) : List (String × JsonValue) → List String
  | [] => []
  | (name, value) :: fields => (quote name ++ ": " ++ value.render depth) :: renderFields depth fields

end

end JsonValue
end SentinelWrap
