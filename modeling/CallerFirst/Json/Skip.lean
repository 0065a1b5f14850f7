import CallerFirst.Json.NumberReader
import CallerFirst.Json.StringReader

/-!
# Going past a value

`skipValue` goes past one value of any nesting depth. The value has to be well formed, but the range
of its numbers and the pairing of its surrogates are not looked at. The containers that are open
stand on a stack.
-/

namespace CallerFirst.Json

/-- A container that has been opened. -/
inductive Bracket
  | array
  | object
  deriving DecidableEq, Repr

namespace Bracket

/-- The character that closes a container. -/
def closing : Bracket → Char
  | .array => ']'
  | .object => '\x7d'

end Bracket

/-- Goes past a value that is no container. -/
def skipScalar (cs : List Char) : Except Fault (List Char) :=
  match cs with
  | [] => .error .truncated
  | 'n' :: rest => readLiteral "ull".toList rest
  | 't' :: rest => readLiteral "rue".toList rest
  | 'f' :: rest => readLiteral "alse".toList rest
  | '"' :: rest => skipString rest
  | c :: _ => if c = '-' ∨ c.isDigit then skipNumber cs else .error .malformed

/-- Goes past a key and its colon. -/
def skipKey (cs : List Char) : Except Fault (List Char) :=
  match skipBlanks cs with
  | [] => .error .truncated
  | '"' :: rest =>
    match skipString rest with
    | .error fault => .error fault
    | .ok rest =>
      match skipBlanks rest with
      | [] => .error .truncated
      | ':' :: rest => .ok rest
      | _ => .error .malformed
  | _ => .error .malformed

/-- Goes to the next value of an open container: past the key, in an object. -/
def toValue (bracket : Bracket) (cs : List Char) : Except Fault (List Char) :=
  match bracket with
  | .array => .ok cs
  | .object => skipKey cs

/-- What the text has to go on with. -/
inductive Awaited
  /-- A value. -/
  | value
  /-- A comma or the end of the innermost container. -/
  | separator
  deriving DecidableEq, Repr

/-- How far a value has been passed: what is awaited, the open containers and the rest of the
text. -/
abbrev Progress := Awaited × List Bracket × List Char

/-- Goes on in a container that has just been opened: to its first value, or past its end. -/
def skipOpening (bracket : Bracket) (stack : List Bracket) (cs : List Char) :
    Except Fault Progress :=
  match skipBlanks cs with
  | [] => .error .truncated
  | c :: rest =>
    if c = bracket.closing then .ok (.separator, stack, rest)
    else (toValue bracket (c :: rest)).map fun rest => (.value, bracket :: stack, rest)

/-- Goes past the next bracket, scalar or comma. -/
def skipStep : Awaited → List Bracket → List Char → Except Fault Progress
  | .value, stack, cs =>
    match skipBlanks cs with
    | '[' :: rest => skipOpening .array stack rest
    | '\x7b' :: rest => skipOpening .object stack rest
    | cs => (skipScalar cs).map fun rest => (.separator, stack, rest)
  | .separator, [], cs => .ok (.separator, [], cs)
  | .separator, bracket :: stack, cs =>
    match skipBlanks cs with
    | [] => .error .truncated
    | c :: rest =>
      if c = bracket.closing then .ok (.separator, stack, rest)
      else if c = ',' then
        (toValue bracket rest).map fun rest => (.value, bracket :: stack, rest)
      else .error .malformed

/-- Goes on until the value has ended and no container is open. Each step takes a character, so that
the text bounds their number. -/
def skipOpen : (bound : List Char) → Awaited → List Bracket → List Char → Except Fault (List Char)
  | [], _, _, _ => .error .truncated
  | _ :: bound, awaited, stack, cs =>
    match skipStep awaited stack cs with
    | .error fault => .error fault
    | .ok (.separator, [], rest) => .ok rest
    | .ok (awaited, stack, rest) => skipOpen bound awaited stack rest

/-- Goes past one value. -/
def skipValue (cs : List Char) : Except Fault (List Char) := skipOpen cs .value [] cs

end CallerFirst.Json
