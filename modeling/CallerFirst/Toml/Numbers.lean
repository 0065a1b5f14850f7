import CallerFirst.Decimal.Digits
import CallerFirst.Decimal.Range
import CallerFirst.Toml.Basic

/-!
# TOML numbers and points in time

Integers have 64 bits and may be written in four bases. Floats and points in time are only checked
and kept as they are written; a float must be finite unless it is a special value or negative.
-/

namespace CallerFirst.Toml

/-- Reads the rest of a run of digits; single underscores may divide digits. -/
def readDigitTail (base : Nat) : (value : Nat) → List Char → Nat × List Char
  | value, [] => (value, [])
  | value, '_' :: c :: rest =>
    match digitIn? base c with
    | some digit => readDigitTail base (value * base + digit) rest
    | none => (value, '_' :: c :: rest)
  | value, c :: rest =>
    match digitIn? base c with
    | some digit => readDigitTail base (value * base + digit) rest
    | none => (value, c :: rest)

/-- Reads a run of at least one digit. -/
def readDigits (base : Nat) (cs : List Char) : Outcome Nat :=
  match cs with
  | [] => none
  | c :: rest => (digitIn? base c).map fun digit => readDigitTail base digit rest

/-- Takes a sign; gives whether it is a minus. -/
def readSign (cs : List Char) : Bool × List Char :=
  match cs with
  | '-' :: rest => (true, rest)
  | '+' :: rest => (false, rest)
  | _ => (false, cs)

/-- Reads a decimal run that starts with a zero only if it is the zero. -/
def readDecimal (cs : List Char) : Outcome Nat :=
  match cs with
  | '0' :: rest => some (0, rest)
  | _ => readDigits 10 cs

/-- An integer of 64 bits. -/
def word? (n : Int) : Option Int :=
  if -9223372036854775808 ≤ n ∧ n ≤ 9223372036854775807 then some n else none

/-- Reads an integer of 64 bits in a base. -/
def readBased (base : Nat) (cs : List Char) : Outcome Int :=
  (readDigits base cs).bind fun (n, rest) => (word? n).map (·, rest)

/-- Reads an integer of 64 bits in decimal digits, with or without a sign. -/
def readSigned (cs : List Char) : Outcome Int :=
  let (negative, rest) := readSign cs
  (readDecimal rest).bind fun (n, rest) => (word? (if negative then -n else n)).map (·, rest)

/-- Reads an integer. -/
def readInteger (cs : List Char) : Outcome Int :=
  match cs with
  | '0' :: 'x' :: rest => readBased 16 rest
  | '0' :: 'o' :: rest => readBased 8 rest
  | '0' :: 'b' :: rest => readBased 2 rest
  | _ => readSigned cs

/-- Reads the digits of an exponent, with or without a sign. -/
def readPower (cs : List Char) : Outcome Int :=
  let (negative, rest) := readSign cs
  (readDigits 10 rest).map fun (n, rest) => (if negative then -n else n, rest)

/-- Reads an exponent. -/
def readExponent (cs : List Char) : Outcome Int :=
  match cs with
  | 'e' :: rest => readPower rest
  | 'E' :: rest => readPower rest
  | _ => none

/-- How many digits stand between two places in a text. -/
def digitCount (cs rest : List Char) : Nat :=
  ((cs.take (cs.length - rest.length)).filter Char.isDigit).length

/-- Reads the fraction after a whole part and its point, and the exponent if there is one. -/
def readFraction (whole : Nat) (cs : List Char) : Outcome Decimal :=
  (readDigits 10 cs).map fun (fraction, rest) =>
    let places := digitCount cs rest
    let significand := whole * Nat.pow 10 places + fraction
    match readExponent rest with
    | some (power, rest) => (⟨significand, power - places⟩, rest)
    | none => (⟨significand, -places⟩, rest)

/-- Reads a whole part with a fraction, an exponent or both. -/
def readMagnitude (cs : List Char) : Outcome Decimal :=
  match readDecimal cs with
  | none => none
  | some (whole, '.' :: rest) => readFraction whole rest
  | some (whole, rest) => (readExponent rest).map fun (power, rest) => (⟨whole, power⟩, rest)

/-- Goes past a float: a magnitude with or without a sign, or a special value. A magnitude that is
too large is refused, except below zero. -/
def skipFloat? (cs : List Char) : Option (List Char) :=
  let (negative, rest) := readSign cs
  match rest with
  | 'i' :: 'n' :: 'f' :: rest => some rest
  | 'n' :: 'a' :: 'n' :: rest => some rest
  | _ =>
    match readMagnitude rest with
    | none => none
    | some (magnitude, rest) => if !negative && magnitude.isTooLarge then none else some rest

/-- Reads a number of exactly `count` digits that lies in a range. -/
def readFixed (count low high : Nat) (cs : List Char) : Outcome Nat :=
  let digits := cs.take count
  let n := numberOf digits
  if digits.length = count ∧ digits.all Char.isDigit ∧ low ≤ n ∧ n ≤ high then
    some (n, cs.drop count)
  else none

/-- Takes an expected character. -/
def expect? (c : Char) : List Char → Option (List Char)
  | d :: rest => if d = c then some rest else none
  | [] => none

/-- How many days a month has. -/
def daysIn (year month : Nat) : Nat :=
  if month = 2 then
    if year % 4 = 0 ∧ (year % 100 ≠ 0 ∨ year % 400 = 0) then 29 else 28
  else if month = 4 ∨ month = 6 ∨ month = 9 ∨ month = 11 then 30
  else 31

/-- Goes past a date. -/
def skipDate? (cs : List Char) : Option (List Char) := do
  let (year, rest) ← readFixed 4 0 9999 cs
  let (month, rest) ← readFixed 2 1 12 (← expect? '-' rest)
  let (_, rest) ← readFixed 2 1 (daysIn year month) (← expect? '-' rest)
  return rest

/-- Goes past a time of day. -/
def skipTime? (cs : List Char) : Option (List Char) := do
  let (_, rest) ← readFixed 2 0 23 cs
  let (_, rest) ← readFixed 2 0 59 (← expect? ':' rest)
  let (_, rest) ← readFixed 2 0 60 (← expect? ':' rest)
  match rest with
  | '.' :: d :: more => if d.isDigit then return more.dropWhile Char.isDigit else return rest
  | _ => return rest

/-- Goes past an offset from universal time. -/
def skipOffset? (cs : List Char) : Option (List Char) :=
  match cs with
  | 'Z' :: rest => some rest
  | 'z' :: rest => some rest
  | c :: rest =>
    if c = '+' ∨ c = '-' then do
      let (_, rest) ← readFixed 2 0 23 rest
      let (_, rest) ← readFixed 2 0 59 (← expect? ':' rest)
      return rest
    else none
  | [] => none

/-- Goes past a point in time: a date, a time of day, or both with or without an offset. -/
def skipMoment? (cs : List Char) : Option (List Char) :=
  match skipDate? cs with
  | none => skipTime? cs
  | some rest =>
    let timed : Option (List Char) :=
      match rest with
      | c :: after =>
        if c = 'T' ∨ c = 't' ∨ c = ' ' then
          (skipTime? after).map fun rest => (skipOffset? rest).getD rest
        else none
      | [] => none
    some (timed.getD rest)

/-- The characters between two places in a text. -/
def between (cs rest : List Char) : String := String.ofList (cs.take (cs.length - rest.length))

/-- Reads a point in time, a float or an integer. -/
def readNumber (cs : List Char) : Outcome Toml :=
  match skipMoment? cs with
  | some rest => some (.moment (between cs rest), rest)
  | none =>
    match skipFloat? cs with
    | some rest => some (.float (between cs rest), rest)
    | none => (readInteger cs).map fun (n, rest) => (.integer n, rest)

end CallerFirst.Toml
