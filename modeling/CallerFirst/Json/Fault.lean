/-!
# Why a JSON text is refused
-/

namespace CallerFirst.Json

/-- The kinds of fault of a JSON text, for a reader that asks for a certain shape. -/
inductive Fault
  /-- The text is no JSON. -/
  | malformed
  /-- The text ends too early. -/
  | truncated
  /-- The text is JSON so far, but not of the shape asked for. -/
  | unexpected
  deriving DecidableEq, Repr

namespace Fault

/-- The name under which a fault is reported. -/
def category : Fault → String
  | .malformed => "syntax"
  | .truncated => "eof"
  | .unexpected => "data"

end Fault

/-- What a reader leaves: a value and the rest of the text, or the first fault. -/
abbrev Outcome (α : Type) := Except Fault (α × List Char)

/-- JSON has four blank characters. -/
def isBlank (c : Char) : Bool := c == ' ' || c == '\n' || c == '\t' || c == '\r'

/-- Goes past blanks. -/
def skipBlanks (cs : List Char) : List Char := cs.dropWhile isBlank

/-- Reads the rest of a literal such as `null`. -/
def readLiteral : (expected cs : List Char) → Except Fault (List Char)
  | [], cs => .ok cs
  | _ :: _, [] => .error .truncated
  | e :: expected, c :: cs => if c = e then readLiteral expected cs else .error .malformed

end CallerFirst.Json
