import CallerFirst.Decimal.Digits
import CallerFirst.Toml.Basic

/-!
# TOML strings and keys

A basic string has escapes and a literal string has none; each has a form of one line and one of
many lines. A key is bare or a string of one line.
-/

namespace CallerFirst.Toml

/-- Reads `count` hexadecimal digits. -/
def readHex : (count value : Nat) → List Char → Outcome Nat
  | 0, value, cs => some (value, cs)
  | _ + 1, _, [] => none
  | count + 1, value, c :: rest =>
    match digitIn? 16 c with
    | some digit => readHex count (value * 16 + digit) rest
    | none => none

/-- The character of a code point; surrogates have none. -/
def charOf? (code : Nat) : Option Char :=
  if code.isValidChar then some (Char.ofNat code) else none

/-- Reads a character given by the digits of its code point. -/
def readCodePoint (count : Nat) (cs : List Char) : Outcome Char :=
  (readHex count 0 cs).bind fun (code, rest) => (charOf? code).map (·, rest)

/-- Reads what follows a backslash. -/
def readEscape (cs : List Char) : Outcome Char :=
  match cs with
  | 'b' :: rest => some ('\x08', rest)
  | 't' :: rest => some ('\t', rest)
  | 'n' :: rest => some ('\n', rest)
  | 'f' :: rest => some ('\x0c', rest)
  | 'r' :: rest => some ('\r', rest)
  | '"' :: rest => some ('"', rest)
  | '\\' :: rest => some ('\\', rest)
  | 'u' :: rest => readCodePoint 4 rest
  | 'U' :: rest => readCodePoint 8 rest
  | _ => none

/-- Reads a basic string of one line after its opening quote. Each step takes a character, so that
the text bounds their number. -/
def readBasic : (bound : List Char) → (done : List Char) → List Char → Outcome String
  | [], _, _ => none
  | _ :: _, _, [] => none
  | _ :: _, done, '"' :: rest => some (String.ofList done.reverse, rest)
  | _ :: bound, done, '\\' :: rest =>
    match readEscape rest with
    | some (c, rest) => readBasic bound (c :: done) rest
    | none => none
  | _ :: bound, done, c :: rest => if isPrintable c then readBasic bound (c :: done) rest else none

/-- Reads a literal string of one line after its opening quote. -/
def readRaw : (done : List Char) → List Char → Outcome String
  | _, [] => none
  | done, '\'' :: rest => some (String.ofList done.reverse, rest)
  | done, c :: rest => if isPrintable c then readRaw (c :: done) rest else none

/-- A run of quotes in a string of many lines: up to two are text, and three close the string after
up to two more that are text. Gives the quotes that are text and whether the string ends. -/
def quoteRun? (count : Nat) : Option (Nat × Bool) :=
  if count < 3 then some (count, false)
  else if count ≤ 5 then some (count - 3, true)
  else none

/-- Goes past blanks and line breaks. -/
def skipGap : List Char → List Char
  | [] => []
  | '\r' :: '\n' :: rest => skipGap rest
  | c :: rest => if isBlank c || c == '\n' then skipGap rest else c :: rest

/-- Goes past the blanks and line breaks after a backslash at the end of a line. -/
def joinLines? (cs : List Char) : Option (List Char) := (lineBreak? (skipBlanks cs)).map skipGap

/-- Reads a string of many lines between runs of three `quote`s, after the opening one. Only a basic
string has escapes. -/
def readLong (quote : Char) (escapes : Bool) :
    (bound : List Char) → (done : List Char) → List Char → Outcome String
  | [], _, _ => none
  | _ :: _, _, [] => none
  | _ :: bound, done, c :: rest =>
    if c = quote then
      let run := (c :: rest).takeWhile (· = quote)
      let after := (c :: rest).dropWhile (· = quote)
      match quoteRun? run.length with
      | none => none
      | some (kept, true) => some (String.ofList (List.replicate kept quote ++ done).reverse, after)
      | some (kept, false) => readLong quote escapes bound (List.replicate kept quote ++ done) after
    else if escapes && c == '\\' then
      match joinLines? rest with
      | some rest => readLong quote escapes bound done rest
      | none =>
        match readEscape rest with
        | some (d, rest) => readLong quote escapes bound (d :: done) rest
        | none => none
    else
      match lineBreak? (c :: rest) with
      | some rest => readLong quote escapes bound ('\n' :: done) rest
      | none => if isPrintable c then readLong quote escapes bound (c :: done) rest else none

/-- A line break right after the opening quotes of a long string is no part of it. -/
def skipFirstBreak (cs : List Char) : List Char := (lineBreak? cs).getD cs

/-- Reads a string of any form. -/
def readString (cs : List Char) : Outcome String :=
  match cs with
  | '"' :: '"' :: '"' :: rest => readLong '"' true rest [] (skipFirstBreak rest)
  | '"' :: rest => readBasic rest [] rest
  | '\'' :: '\'' :: '\'' :: rest => readLong '\'' false rest [] (skipFirstBreak rest)
  | '\'' :: rest => readRaw [] rest
  | _ => none

/-- The characters of a bare key. -/
def isBare (c : Char) : Bool := c.isAlphanum || c == '_' || c == '-'

/-- Reads one part of a key. -/
def readKeyPart (cs : List Char) : Outcome String :=
  match cs with
  | '"' :: rest => readBasic rest [] rest
  | '\'' :: rest => readRaw [] rest
  | _ =>
    let bare := cs.takeWhile isBare
    if bare.isEmpty then none else some (String.ofList bare, cs.dropWhile isBare)

/-- Reads the parts of a dotted key, with the blanks around them. -/
def readKeyParts : (bound : List Char) → List Char → Outcome (List String)
  | [], _ => none
  | _ :: bound, cs =>
    match readKeyPart (skipBlanks cs) with
    | none => none
    | some (part, rest) =>
      match skipBlanks rest with
      | '.' :: rest => (readKeyParts bound rest).map fun (parts, rest) => (part :: parts, rest)
      | rest => some ([part], rest)

/-- The most parts that a key may have. -/
def maxKeyParts : Nat := 79

/-- Reads a key, which may be dotted. -/
def readKey (cs : List Char) : Outcome (List String) :=
  (readKeyParts cs cs).filter fun (parts, _) => parts.length ≤ maxKeyParts

end CallerFirst.Toml
