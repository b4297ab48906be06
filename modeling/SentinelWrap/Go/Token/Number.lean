import SentinelWrap.Go.Token.Scan
/-! Number literals. -/
namespace SentinelWrap.Go.Number
open Scan

def isHex (c : Char) : Bool := c.isDigit || ('a' ≤ c && c ≤ 'f') || ('A' ≤ c && c ≤ 'F')

def isOctal (c : Char) : Bool := '0' ≤ c && c ≤ '7'

def isBinary (c : Char) : Bool := c == '0' || c == '1'

/-- Either case of an ASCII letter. -/
def letter (lower : Char) : Scan := one fun c => c == lower || c == lower.toUpper

def lowLine : Scan := opt (char '_')

def decimals : Scan := digits Char.isDigit

def hexes : Scan := digits isHex

def int : Scan := longest [
  all [char '0', letter 'b', lowLine, digits isBinary],
  char '0',
  all [one fun c => '1' ≤ c && c ≤ '9', opt (all [lowLine, decimals])],
  all [char '0', opt (letter 'o'), lowLine, digits isOctal],
  all [char '0', letter 'x', lowLine, hexes]]

def sign : Scan := opt (one fun c => c == '+' || c == '-')

def exponent (mark : Char) : Scan := all [letter mark, sign, decimals]

/-- A hexadecimal fraction needs its binary exponent. -/
def float : Scan := longest [
  all [decimals, char '.', opt decimals, opt (exponent 'e')],
  all [decimals, exponent 'e'],
  all [char '.', decimals, opt (exponent 'e')],
  all [char '0', letter 'x', lowLine, hexes, char '.', opt hexes, exponent 'p'],
  all [char '0', letter 'x', lowLine, hexes, exponent 'p'],
  all [char '0', letter 'x', char '.', hexes, exponent 'p']]

/-- Decimal digits may start with zeros here. -/
def imaginary : Scan := all [longest [decimals, int, float], char 'i']

end SentinelWrap.Go.Number
