/-!
# TOML values

A TOML document is a table. Only what a reader of settings asks for is decoded: a float and a point
in time are kept as they are written.
-/

namespace CallerFirst

/-- A TOML value. -/
inductive Toml
  | string (value : String)
  | integer (value : Int)
  | float (text : String)
  | boolean (value : Bool)
  | moment (text : String)
  | array (items : List Toml)
  | table (members : List (String × Toml))
  deriving Inhabited

namespace Toml

/-- What a reader leaves: a value and the rest of the text, unless the text is faulty. -/
abbrev Outcome (α : Type) := Option (α × List Char)

/-- Blanks within a line. -/
def isBlank (c : Char) : Bool := c == ' ' || c == '\t'

/-- Goes past blanks within a line. -/
def skipBlanks (cs : List Char) : List Char := cs.dropWhile isBlank

/-- Whether a character may stand in a comment: no control character but the tab. -/
def isPrintable (c : Char) : Bool := c == '\t' || (0x20 ≤ c.toNat && c.toNat ≠ 0x7f)

/-- Takes a line break, if there is one. -/
def lineBreak? (cs : List Char) : Option (List Char) :=
  match cs with
  | '\n' :: rest => some rest
  | '\r' :: '\n' :: rest => some rest
  | _ => none

/-- Goes past a comment, up to the end of its line. -/
def skipComment (cs : List Char) : List Char :=
  match cs with
  | '#' :: rest => rest.dropWhile isPrintable
  | _ => cs

/-- Goes past the end of a line: blanks, a comment, and a line break or the end of the text. -/
def endLine? (cs : List Char) : Option (List Char) :=
  match skipComment (skipBlanks cs) with
  | [] => some []
  | cs => lineBreak? cs

/-- Goes past blanks, line breaks and comments. Each step takes a character, so that the text bounds
their number. -/
def skipLines : (bound : List Char) → List Char → List Char
  | [], cs => cs
  | _ :: bound, cs =>
    match skipBlanks cs with
    | '#' :: rest => skipLines bound (rest.dropWhile isPrintable)
    | cs =>
      match lineBreak? cs with
      | some rest => skipLines bound rest
      | none => cs

/-- Goes past blanks, line breaks and comments. -/
def skipSpace (cs : List Char) : List Char := skipLines cs cs

end Toml

end CallerFirst
