import CallerFirst.Decimal.Layout

/-!
# JSON values and their text

`Json` is a JSON value; whole numbers and binary64 numbers are kept apart, and an object keeps its
members in order. `Json.write` gives the text of a value in a `Json.Style`: `Json.compact` on one
line, `Json.indented` with one member to a line and two blanks for each level.
-/

namespace CallerFirst

/-- A JSON value. -/
inductive Json
  | null
  | bool (value : Bool)
  | integer (value : Int)
  | real (value : Binary64)
  | string (value : String)
  | array (items : List Json)
  | object (members : List (String × Json))
  deriving Inhabited

namespace Json

/-! ### Strings -/

/-- The last hexadecimal digit of a number, in lower case. -/
def hexDigit (n : Nat) : Char := Nat.digitChar (n % 16)

/-- A character inside of a string literal: quotes, backslashes and control characters are
escaped. -/
def escapeChar (c : Char) : List Char :=
  if c = '"' then ['\\', '"']
  else if c = '\\' then ['\\', '\\']
  else if c = '\n' then ['\\', 'n']
  else if c = '\r' then ['\\', 'r']
  else if c = '\t' then ['\\', 't']
  else if c = '\x08' then ['\\', 'b']
  else if c = '\x0c' then ['\\', 'f']
  else if c.toNat < 0x20 then ['\\', 'u', '0', '0', hexDigit (c.toNat / 16), hexDigit c.toNat]
  else [c]

/-- A string literal. -/
def writeString (s : String) : List Char := '"' :: s.toList.flatMap escapeChar ++ ['"']

/-! ### Numbers -/

/-- Numbers keep a point, a tie goes to the even digit, and the magnitudes from `10 ^ -5` to
`10 ^ 15` are positional. -/
def numberFormat : NumberFormat := ⟨.toEven, true, some (-5, 15)⟩

/-- A whole number in decimal digits. -/
def writeInt : Int → List Char
  | .ofNat n => Nat.toDigits 10 n
  | .negSucc n => '-' :: Nat.toDigits 10 (n + 1)

/-! ### Values -/

/-- How the members of a container are set apart. -/
structure Style where
  /-- What stands before a member, or the closing bracket, at a nesting level. -/
  lineBreak : Nat → List Char
  /-- What divides a key from its value. -/
  colon : List Char

/-- All on one line. -/
def compact : Style := ⟨fun _ => [], [':']⟩

/-- One member to a line, two blanks for each level. -/
def indented : Style := ⟨fun level => '\n' :: List.replicate (2 * level) ' ', [':', ' ']⟩

/-- The members of a container, each on its own line, and the closing bracket. An empty container
has no line breaks. -/
def writeItems (style : Style) (level : Nat) (opening closing : Char) (items : List (List Char)) :
    List Char :=
  match items with
  | [] => [opening, closing]
  | item :: rest =>
    opening :: style.lineBreak (level + 1) ++ item
      ++ rest.flatMap (fun next => ',' :: style.lineBreak (level + 1) ++ next)
      ++ style.lineBreak level ++ [closing]

mutual

/-- The text of a value that stands at a nesting level. -/
def writeAt (style : Style) (level : Nat) : Json → List Char
  | .null => "null".toList
  | .bool true => "true".toList
  | .bool false => "false".toList
  | .integer n => writeInt n
  | .real x => numberFormat.write x
  | .string s => writeString s
  | .array items => writeItems style level '[' ']' (writeElements style (level + 1) items)
  | .object members =>
    writeItems style level '\x7b' '\x7d' (writeMembers style (level + 1) members)

/-- The text of each element. -/
def writeElements (style : Style) (level : Nat) : List Json → List (List Char)
  | [] => []
  | value :: rest => writeAt style level value :: writeElements style level rest

/-- The text of each member of an object. -/
def writeMembers (style : Style) (level : Nat) : List (String × Json) → List (List Char)
  | [] => []
  | (key, value) :: rest =>
    (writeString key ++ style.colon ++ writeAt style level value) :: writeMembers style level rest

end

/-- The text of a value. -/
def write (style : Style) (value : Json) : String := String.ofList (value.writeAt style 0)

/-! ### Looking into a value -/

/-- The member under a key. -/
def get? (key : String) : Json → Option Json
  | .object members => (members.find? (·.1 == key)).map (·.2)
  | _ => none

/-- A list of strings as a value. -/
def ofStrings (items : List String) : Json := .array (items.map .string)

end Json

end CallerFirst
