/-! Numbers in hexadecimal digits, and the characters that they stand for. -/
namespace SentinelWrap.Text

def hexValue? (c : Char) : Option Nat :=
  if '0' ≤ c && c ≤ '9' then some (c.toNat - '0'.toNat)
  else if 'a' ≤ c && c ≤ 'f' then some (c.toNat - 'a'.toNat + 10)
  else if 'A' ≤ c && c ≤ 'F' then some (c.toNat - 'A'.toNat + 10)
  else none

/-- A number written with exactly `count` hexadecimal digits. -/
def hexNumber? (count : Nat) (cs : List Char) : Option (Nat × List Char) :=
  let digits := cs.take count
  if digits.length == count then do
    let values ← digits.mapM hexValue?
    return (values.foldl (fun n d => 16 * n + d) 0, cs.drop count)
  else none

/-- The character with a code point; surrogates are none. -/
def scalar? (n : Nat) : Option Char :=
  if n.isValidChar then some (Char.ofNat n) else none

end SentinelWrap.Text
