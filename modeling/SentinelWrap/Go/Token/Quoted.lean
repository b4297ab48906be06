import SentinelWrap.Go.Token.Number
/-! Rune and string literals. -/
namespace SentinelWrap.Go.Quoted
open Number (isHex isOctal)

/-- The length of an interpreted string after its opening quote, the closing one included. Any
character but `x`, `u` and `U` may stand after a backslash. -/
def stringTail : List Char → Option Nat
  | '"' :: _ => some 1
  | '\n' :: _ => none
  | '\\' :: 'x' :: a :: b :: cs =>
    if [a, b].all isHex then (stringTail cs).map (· + 4) else none
  | '\\' :: 'u' :: a :: b :: c :: d :: cs =>
    if [a, b, c, d].all isHex then (stringTail cs).map (· + 6) else none
  | '\\' :: 'U' :: a :: b :: c :: d :: e :: f :: g :: h :: cs =>
    if [a, b, c, d, e, f, g, h].all isHex then (stringTail cs).map (· + 10) else none
  | '\\' :: c :: cs =>
    if c == 'x' || c == 'u' || c == 'U' then none else (stringTail cs).map (· + 2)
  | _ :: cs => (stringTail cs).map (· + 1)
  | [] => none

def string : Scan
  | '"' :: cs => (stringTail cs).map (· + 1)
  | _ => none

/-- The length of a raw string after its opening quote, the closing one included. -/
def rawTail : List Char → Option Nat
  | [] => none
  | c :: cs => if c == '\x60' then some 1 else (rawTail cs).map (· + 1)

def rawString : Scan
  | c :: cs => if c == '\x60' then (rawTail cs).map (· + 1) else none
  | [] => none

/-- A rune holds one character or one escape. -/
def rune : Scan
  | '\'' :: '\\' :: c :: '\'' :: _ => if "abfnrtv\\'\"".contains c then some 4 else none
  | '\'' :: '\\' :: 'x' :: a :: b :: '\'' :: _ => if [a, b].all isHex then some 6 else none
  | '\'' :: '\\' :: a :: b :: c :: '\'' :: _ => if [a, b, c].all isOctal then some 6 else none
  | '\'' :: '\\' :: 'u' :: a :: b :: c :: d :: '\'' :: _ =>
    if [a, b, c, d].all isHex then some 8 else none
  | '\'' :: '\\' :: 'U' :: a :: b :: c :: d :: e :: f :: g :: h :: '\'' :: _ =>
    if [a, b, c, d, e, f, g, h].all isHex then some 12 else none
  | '\'' :: c :: '\'' :: _ => if c == '\'' || c == '\\' then none else some 3
  | _ => none

end SentinelWrap.Go.Quoted
