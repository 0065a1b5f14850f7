import CallerFirst.Decimal.Digits
import CallerFirst.Json.Basic
import CallerFirst.Json.Fault

/-!
# Reading numbers

A number without fraction and exponent that fits 64 bits is whole; every other number, `-0`
included, is a binary64 number. At most 64 bits of the digits make the significand: later digits of
the whole part only raise the exponent, and later digits of the fraction are dropped.
-/

namespace CallerFirst.Json

/-- Significands have at most 64 bits. -/
def significandLimit : Nat := Nat.pow 2 64

/-- Appends digits to a significand as long as it fits; gives the digits that were left as well. -/
def appendDigits (significand : Nat) : (digits : List Char) → Nat × List Char
  | [] => (significand, [])
  | c :: rest =>
    let next := significand * 10 + digitValue c
    if next < significandLimit then appendDigits next rest else (significand, c :: rest)

/-- A number of the given sign and magnitude. -/
def signedReal (negative : Bool) (d : Decimal) : Except Fault Json :=
  match d.toBinary64? with
  | some x => .ok (.real (x.withSign negative))
  | none => .error .malformed

/-- A number without fraction and exponent whose digits fit the significand. -/
def wholeNumber (negative : Bool) (significand : Nat) : Except Fault Json :=
  if !negative then .ok (.integer significand)
  else if significand ≠ 0 ∧ significand ≤ Nat.pow 2 63 then .ok (.integer (-significand))
  else signedReal true ⟨significand, 0⟩

/-- Reads what follows the `e` of a number. -/
def readExponent (negative : Bool) (d : Decimal) (cs : List Char) : Outcome Json :=
  let (down, cs) :=
    match cs with
    | '+' :: rest => (false, rest)
    | '-' :: rest => (true, rest)
    | _ => (false, cs)
  match cs with
  | [] => .error .truncated
  | c :: _ =>
    if c.isDigit then
      let power := numberOf (cs.takeWhile Char.isDigit)
      let exponent := if down then d.exponent - power else d.exponent + power
      (signedReal negative { d with exponent }).map (·, cs.dropWhile Char.isDigit)
    else .error .malformed

/-- Reads the exponent, if there is one. -/
def readTail (negative : Bool) (d : Decimal) (cs : List Char) : Outcome Json :=
  match cs with
  | 'e' :: rest => readExponent negative d rest
  | 'E' :: rest => readExponent negative d rest
  | _ => (signedReal negative d).map (·, cs)

/-- Reads what follows the point of a number. -/
def readFraction (negative : Bool) (d : Decimal) (cs : List Char) : Outcome Json :=
  let digits := cs.takeWhile Char.isDigit
  let rest := cs.dropWhile Char.isDigit
  if digits.isEmpty then
    .error (if rest.isEmpty then .truncated else .malformed)
  else
    let (significand, dropped) := appendDigits d.significand digits
    let places := digits.length - dropped.length
    readTail negative ⟨significand, d.exponent - places⟩ rest

/-- Reads a number after its sign. -/
def readMagnitude (negative : Bool) (cs : List Char) : Outcome Json :=
  let digits := cs.takeWhile Char.isDigit
  let rest := cs.dropWhile Char.isDigit
  match digits with
  | [] => .error (if cs.isEmpty then .truncated else .malformed)
  | '0' :: _ :: _ => .error .malformed
  | _ =>
    let (significand, extra) := appendDigits 0 digits
    let d : Decimal := ⟨significand, extra.length⟩
    match rest with
    | '.' :: rest => readFraction negative d rest
    | 'e' :: rest => readExponent negative d rest
    | 'E' :: rest => readExponent negative d rest
    | _ =>
      if extra.isEmpty then (wholeNumber negative significand).map (·, rest)
      else (signedReal negative d).map (·, rest)

/-- Reads a number. -/
def readNumber (cs : List Char) : Outcome Json :=
  match cs with
  | '-' :: rest => readMagnitude true rest
  | _ => readMagnitude false cs

/-- Goes past the digits of an exponent. -/
def skipExponent (cs : List Char) : Except Fault (List Char) :=
  let cs :=
    match cs with
    | '+' :: rest => rest
    | '-' :: rest => rest
    | _ => cs
  if (cs.takeWhile Char.isDigit).isEmpty then .error .malformed else .ok (cs.dropWhile Char.isDigit)

/-- Goes past an exponent, if there is one. -/
def skipTail (cs : List Char) : Except Fault (List Char) :=
  match cs with
  | 'e' :: rest => skipExponent rest
  | 'E' :: rest => skipExponent rest
  | _ => .ok cs

/-- Goes past a number; only its form is looked at. -/
def skipNumber (cs : List Char) : Except Fault (List Char) :=
  let cs :=
    match cs with
    | '-' :: rest => rest
    | _ => cs
  let rest := cs.dropWhile Char.isDigit
  match cs.takeWhile Char.isDigit with
  | [] => .error .malformed
  | '0' :: _ :: _ => .error .malformed
  | _ =>
    match rest with
    | '.' :: rest =>
      if (rest.takeWhile Char.isDigit).isEmpty then .error .malformed
      else skipTail (rest.dropWhile Char.isDigit)
    | _ => skipTail rest

end CallerFirst.Json
