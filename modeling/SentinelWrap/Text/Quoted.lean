import SentinelWrap.Text.Hidden
/-! Texts in double quotes with escapes, as messages show them. -/
namespace SentinelWrap.Text

/-- Lowercase hexadecimal digits without padding. -/
def hex (n : Nat) : String := String.ofList (Nat.toDigits 16 n)

/-- Hidden characters without a short escape are written by their code point. -/
def quoteChar (c : Char) : String :=
  match c with
  | '"' => "\\\""
  | '\\' => "\\\\"
  | '\n' => "\\n"
  | '\r' => "\\r"
  | '\t' => "\\t"
  | '\x00' => "\\0"
  | c => if isHidden c then "\\u\x7b" ++ hex c.toNat ++ "\x7d" else c.toString

def quote (s : String) : String :=
  "\"" ++ String.join (s.toList.map quoteChar) ++ "\""

end SentinelWrap.Text
