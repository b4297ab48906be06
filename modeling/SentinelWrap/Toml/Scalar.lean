import SentinelWrap.Toml.Value
/-! Numbers, booleans and times: what a word without quotes stands for. -/
namespace SentinelWrap.Toml

/-- The value of a digit in a base. -/
def digitValue? (base : Nat) (c : Char) : Option Nat :=
  let n :=
    if c.isDigit then c.toNat - '0'.toNat
    else if 'a' ≤ c && c ≤ 'f' then c.toNat - 'a'.toNat + 10
    else if 'A' ≤ c && c ≤ 'F' then c.toNat - 'A'.toNat + 10
    else base
  if n < base then some n else none

/-- Digits with single underscores between them. -/
def groupedDigits? (base : Nat) : List Char → Option (List Nat)
  | [] => none
  | [c] => (digitValue? base c).map ([·])
  | c :: '_' :: rest => do
    let d ← digitValue? base c
    return d :: (← groupedDigits? base rest)
  | c :: rest => do
    let d ← digitValue? base c
    return d :: (← groupedDigits? base rest)

def ofDigits (base : Nat) (digits : List Nat) : Nat := digits.foldl (fun n d => base * n + d) 0

/-- A decimal number does not begin with a zero, unless it is zero. -/
def decimal? (cs : List Char) : Option Nat := do
  let digits ← groupedDigits? 10 cs
  if digits.head? == some 0 && 1 < digits.length then none else some (ofDigits 10 digits)

def sign : List Char → Int × List Char
  | '+' :: rest => (1, rest)
  | '-' :: rest => (-1, rest)
  | rest => (1, rest)

/-- Integers fit into 128 bits, with or without a sign. -/
def bounded? (n : Int) : Option Int :=
  if -Int.ofNat (Nat.pow 2 127) ≤ n ∧ n < Int.ofNat (Nat.pow 2 128) then some n else none

/-- Other bases than ten have no sign. -/
def integer? : List Char → Option Int
  | '0' :: 'x' :: rest => do bounded? (ofDigits 16 (← groupedDigits? 16 rest))
  | '0' :: 'o' :: rest => do bounded? (ofDigits 8 (← groupedDigits? 8 rest))
  | '0' :: 'b' :: rest => do bounded? (ofDigits 2 (← groupedDigits? 2 rest))
  | cs => do
    let (sign, cs) := sign cs
    bounded? (sign * (← decimal? cs))

/-- Whether `digits · 10^exponent` is less than the numbers that round beyond the largest double. -/
def isFinite (digits : Nat) (exponent : Int) : Bool :=
  let size : Int := (Nat.toDigits 10 digits).length
  let limit := Nat.pow 2 1024 - Nat.pow 2 970
  if digits = 0 || size + exponent < 300 then true
  else if 310 < size + exponent then false
  else
    match exponent with
    | .ofNat e => digits * Nat.pow 10 e < limit
    | .negSucc e => digits < limit * Nat.pow 10 (e + 1)

/-- An integer part, then a fraction or an exponent or both. -/
def isFloat (cs : List Char) : Bool :=
  let (_, cs) := sign cs
  cs == ['i', 'n', 'f'] || cs == ['n', 'a', 'n'] ||
    let isExponent (c : Char) := c == 'e' || c == 'E'
    let mantissa := cs.takeWhile fun c => !isExponent c
    let whole := mantissa.takeWhile (· != '.')
    let fraction := mantissa.dropWhile (· != '.')
    let exponent := cs.dropWhile fun c => !isExponent c
    let fractionDigits := match fraction with
      | [] => some []
      | _ :: digits => groupedDigits? 10 digits
    let exponentValue : Option Int := match exponent with
      | [] => some 0
      | _ :: rest =>
        let (sign, rest) := sign rest
        (groupedDigits? 10 rest).map fun digits => sign * ofDigits 10 digits
    (fraction != [] || exponent != []) &&
      match decimal? whole, fractionDigits, exponentValue with
      | some n, some digits, some e =>
        isFinite (digits.foldl (fun n d => 10 * n + d) n) (e - digits.length)
      | _, _, _ => false

/-- A number of exactly `count` digits. -/
def fixedNumber? (count : Nat) (cs : List Char) : Option (Nat × List Char) :=
  let digits := cs.take count
  if digits.length == count && digits.all Char.isDigit then
    some (ofDigits 10 (digits.map fun c => c.toNat - '0'.toNat), cs.drop count)
  else none

def expect? (c : Char) : List Char → Option (List Char)
  | d :: rest => if c == d then some rest else none
  | [] => none

def isLeap (year : Nat) : Bool := year % 4 == 0 && (year % 100 != 0 || year % 400 == 0)

def daysIn (year month : Nat) : Nat :=
  if month == 2 then if isLeap year then 29 else 28
  else if month == 4 || month == 6 || month == 9 || month == 11 then 30
  else 31

/-- A date, and what follows it. -/
def date? (cs : List Char) : Option (List Char) := do
  let (year, cs) ← fixedNumber? 4 cs
  let cs ← expect? '-' cs
  let (month, cs) ← fixedNumber? 2 cs
  let cs ← expect? '-' cs
  let (day, cs) ← fixedNumber? 2 cs
  if 1 ≤ month && month ≤ 12 && 1 ≤ day && day ≤ daysIn year month then some cs else none

/-- The seconds of a time, which may be missing. -/
def seconds? : List Char → Option (List Char)
  | ':' :: cs => do
    let (second, cs) ← fixedNumber? 2 cs
    if 60 < second then none
    else
      match cs with
      | '.' :: c :: rest => if c.isDigit then some (rest.dropWhile Char.isDigit) else none
      | '.' :: [] => none
      | cs => some cs
  | cs => some cs

def hourAndMinute? (cs : List Char) : Option (List Char) := do
  let (hour, cs) ← fixedNumber? 2 cs
  let cs ← expect? ':' cs
  let (minute, cs) ← fixedNumber? 2 cs
  if hour ≤ 23 && minute ≤ 59 then some cs else none

def time? (cs : List Char) : Option (List Char) := do seconds? (← hourAndMinute? cs)

def isOffset : List Char → Bool
  | ['Z'] | ['z'] => true
  | '+' :: cs | '-' :: cs => hourAndMinute? cs == some []
  | _ => false

/-- A date, a time, or a date and a time with or without an offset. -/
def isDatetime (cs : List Char) : Bool :=
  time? cs == some [] ||
    match date? cs with
    | some [] => true
    | some (c :: rest) =>
      (c == 'T' || c == 't' || c == ' ') &&
        match time? rest with
        | some [] => true
        | some offset => isOffset offset
        | none => false
    | none => false

def scalar (cs : List Char) : Option Value :=
  if cs == ['t', 'r', 'u', 'e'] then some (.boolean true)
  else if cs == ['f', 'a', 'l', 's', 'e'] then some (.boolean false)
  else if isDatetime cs then some .datetime
  else
    match integer? cs with
    | some n => some (.integer n)
    | none => if isFloat cs then some .float else none

end SentinelWrap.Toml
