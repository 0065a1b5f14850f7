import CallerFirst.Json.Skip

/-!
# Readers for JSON text

A `Reader` takes a value of a certain shape off the front of a text in one pass; the first fault
decides. Its number argument says how many more containers may be opened.

Main definitions:

* `Reader.string`, `Reader.optional`, `Reader.count`: readers of scalars;
* `Reader.list`, `Reader.map`: readers of arrays and of objects with free keys;
* `Record.read`: a reader of objects with fixed keys, which may also be written as arrays of their
  fields;
* `Reader.value`: a reader of any value;
* `Reader.run`: reads a whole text.
-/

namespace CallerFirst.Json

/-- Takes a value off the front of a text, opening at most so many containers within each other. -/
abbrev Reader (α : Type) := (depth : Nat) → List Char → Outcome α

/-! ### Scalars -/

/-- The fault of a text that goes on with a value of another shape than asked for. A scalar is read
first, so its own faults come first. -/
def otherShape (cs : List Char) : Fault :=
  let after {α : Type} (outcome : Except Fault α) : Fault :=
    match outcome with
    | .error fault => fault
    | .ok _ => .unexpected
  match cs with
  | [] => .truncated
  | 'n' :: rest => after (readLiteral "ull".toList rest)
  | 't' :: rest => after (readLiteral "rue".toList rest)
  | 'f' :: rest => after (readLiteral "alse".toList rest)
  | '"' :: rest => after (readString rest)
  | '[' :: _ => .unexpected
  | '\x7b' :: _ => .unexpected
  | c :: _ => if c = '-' ∨ c.isDigit then after (readNumber cs) else .malformed

/-- Whether a number starts here. -/
def startsNumber : List Char → Bool
  | [] => false
  | c :: _ => c == '-' || c.isDigit

namespace Reader

variable {α β : Type}

/-- Makes another value of what is read. -/
def map (f : α → β) (reader : Reader α) : Reader β := fun depth cs =>
  (reader depth cs).map fun (value, rest) => (f value, rest)

/-- A string. -/
def string : Reader String := fun _ cs =>
  match skipBlanks cs with
  | '"' :: rest => readString rest
  | cs => .error (otherShape cs)

/-- A value or `null`. -/
def optional (reader : Reader α) : Reader (Option α) := fun depth cs =>
  match skipBlanks cs with
  | 'n' :: rest => (readLiteral "ull".toList rest).map (none, ·)
  | _ => reader.map some depth cs

/-- A whole number that is not negative. -/
def count : Reader Nat := fun _ cs =>
  let cs := skipBlanks cs
  if startsNumber cs then
    match readNumber cs with
    | .error fault => .error fault
    | .ok (.integer (.ofNat n), rest) => .ok (n, rest)
    | .ok _ => .error .unexpected
  else .error (otherShape cs)

end Reader

/-! ### Arrays -/

/-- Where the text stands in an array. -/
inductive InArray
  /-- The array has ended. -/
  | ended (rest : List Char)
  /-- An element follows. -/
  | element (rest : List Char)

/-- Goes to the next element of an array, past the comma unless it is the first. -/
def nextElement (first : Bool) (cs : List Char) : Except Fault InArray :=
  match skipBlanks cs with
  | [] => .error .truncated
  | ']' :: rest => .ok (.ended rest)
  | c :: rest =>
    if first then .ok (.element (c :: rest))
    else if c = ',' then
      match skipBlanks rest with
      | [] => .error .truncated
      | ']' :: _ => .error .malformed
      | rest => .ok (.element rest)
    else .error .malformed

/-- The elements of an array up to its end, after those in `done`, of which the latest comes first.
Each element takes a character, so that the text from the opening bracket on bounds their number. -/
def readElements {α : Type} (element : List Char → Outcome α) :
    (bound : List Char) → (first : Bool) → (done : List α) → List Char → Outcome (List α)
  | [], _, _, _ => .error .truncated
  | _ :: bound, first, done, cs =>
    match nextElement first cs with
    | .error fault => .error fault
    | .ok (.ended rest) => .ok (done.reverse, rest)
    | .ok (.element rest) =>
      match element rest with
      | .error fault => .error fault
      | .ok (value, rest) => readElements element bound false (value :: done) rest

/-- An array of values of one shape. -/
def Reader.list {α : Type} (element : Reader α) : Reader (List α) := fun depth cs =>
  match skipBlanks cs with
  | '[' :: rest =>
    match depth with
    | 0 => .error .malformed
    | depth + 1 => readElements (element depth) ('[' :: rest) true [] rest
  | cs => .error (otherShape cs)

/-! ### Objects -/

/-- Where the text stands in an object. -/
inductive InObject
  /-- The object has ended. -/
  | ended (rest : List Char)
  /-- A key follows; its opening quote has been read. -/
  | key (rest : List Char)

/-- Goes to the next key of an object, past the comma unless it is the first. -/
def nextKey (first : Bool) (cs : List Char) : Except Fault InObject :=
  match skipBlanks cs with
  | [] => .error .truncated
  | '\x7d' :: rest => .ok (.ended rest)
  | c :: rest =>
    if first then
      if c = '"' then .ok (.key rest) else .error .malformed
    else if c = ',' then
      match skipBlanks rest with
      | [] => .error .truncated
      | '"' :: rest => .ok (.key rest)
      | _ => .error .malformed
    else .error .malformed

/-- Goes past the colon of a member. -/
def readColon (cs : List Char) : Except Fault (List Char) :=
  match skipBlanks cs with
  | [] => .error .truncated
  | ':' :: rest => .ok rest
  | _ => .error .malformed

/-- The members of an object up to its end, gathered in a state. `member` says how the value under
a key is read into the state; it may refuse the key. The text from the opening brace on bounds the
number of members. -/
def readMembers {σ : Type} (member : σ → String → Except Fault (List Char → Outcome σ)) :
    (bound : List Char) → (first : Bool) → σ → List Char → Outcome σ
  | [], _, _, _ => .error .truncated
  | _ :: bound, first, state, cs =>
    match nextKey first cs with
    | .error fault => .error fault
    | .ok (.ended rest) => .ok (state, rest)
    | .ok (.key rest) =>
      match readString rest with
      | .error fault => .error fault
      | .ok (key, rest) =>
        match member state key with
        | .error fault => .error fault
        | .ok value =>
          match readColon rest with
          | .error fault => .error fault
          | .ok rest =>
            match value rest with
            | .error fault => .error fault
            | .ok (state, rest) => readMembers member bound false state rest

/-- Adds a member to those gathered so far, of which the latest comes first. -/
def gather {α : Type} (value : List Char → Outcome α) (done : List (String × α)) (key : String) :
    Except Fault (List Char → Outcome (List (String × α))) :=
  .ok fun cs => (value cs).map fun (found, rest) => ((key, found) :: done, rest)

/-- An object with free keys, as the list of its members. -/
def Reader.members {α : Type} (value : Reader α) : Reader (List (String × α)) := fun depth cs =>
  match skipBlanks cs with
  | '\x7b' :: rest =>
    match depth with
    | 0 => .error .malformed
    | depth + 1 =>
      (readMembers (gather (value depth)) ('\x7b' :: rest) true [] rest).map
        fun (found, rest) => (found.reverse, rest)
  | cs => .error (otherShape cs)

/-! ### Records -/

/-- A field of a record that is gathered in a state `σ`. -/
structure Field (σ : Type) where
  name : String
  /-- Whether the field has been read. -/
  isSet : σ → Bool
  /-- Reads the field into the state. -/
  read : σ → Reader σ

/-- An object with fixed keys. It is gathered in a state `σ` and then made into a value, which fails
when a field is missing that has to be there. -/
structure Record (σ α : Type) where
  fields : List (Field σ)
  start : σ
  finish : σ → Option α

namespace Record

variable {σ α : Type}

/-- How the value under a key is read: a key of the record once, any other key not at all. -/
def member (record : Record σ α) (depth : Nat) (state : σ) (key : String) :
    Except Fault (List Char → Outcome σ) :=
  match record.fields.find? (·.name == key) with
  | some field =>
    if field.isSet state then .error .unexpected else .ok (field.read state depth)
  | none => .ok fun cs => (skipValue cs).map (state, ·)

/-- Reads the fields in order from an array, of which the last ones may be missing. -/
def readPositional (depth : Nat) :
    (fields : List (Field σ)) → (first : Bool) → σ → List Char → Outcome σ
  | [], _, state, cs =>
    match skipBlanks cs with
    | [] => .error .truncated
    | ']' :: rest => .ok (state, rest)
    | _ => .error .malformed
  | field :: fields, first, state, cs =>
    match nextElement first cs with
    | .error fault => .error fault
    | .ok (.ended rest) => .ok (state, rest)
    | .ok (.element rest) =>
      match field.read state depth rest with
      | .error fault => .error fault
      | .ok (state, rest) => readPositional depth fields false state rest

/-- Makes the value, or finds that a field is missing. -/
def conclude (record : Record σ α) : Outcome σ → Outcome α
  | .error fault => .error fault
  | .ok (state, rest) =>
    match record.finish state with
    | some value => .ok (value, rest)
    | none => .error .unexpected

/-- Reads a record from an object or from an array. -/
def read (record : Record σ α) : Reader α := fun depth cs =>
  match skipBlanks cs with
  | '\x7b' :: rest =>
    match depth with
    | 0 => .error .malformed
    | depth + 1 =>
      record.conclude (readMembers (record.member depth) ('\x7b' :: rest) true record.start rest)
  | '[' :: rest =>
    match depth with
    | 0 => .error .malformed
    | depth + 1 => record.conclude (readPositional depth record.fields true record.start rest)
  | cs => .error (otherShape cs)

end Record

/-! ### Values and whole texts -/

/-- Reads any value. -/
def Reader.value : Reader Json
  | depth, cs =>
    match skipBlanks cs with
    | [] => .error .truncated
    | 'n' :: rest => (readLiteral "ull".toList rest).map (.null, ·)
    | 't' :: rest => (readLiteral "rue".toList rest).map (.bool true, ·)
    | 'f' :: rest => (readLiteral "alse".toList rest).map (.bool false, ·)
    | '"' :: rest => (readString rest).map fun (s, rest) => (.string s, rest)
    | '[' :: rest =>
      match depth with
      | 0 => .error .malformed
      | depth + 1 =>
        (readElements (Reader.value depth) ('[' :: rest) true [] rest).map
          fun (items, rest) => (.array items, rest)
    | '\x7b' :: rest =>
      match depth with
      | 0 => .error .malformed
      | depth + 1 =>
        (readMembers (gather (Reader.value depth)) ('\x7b' :: rest) true [] rest).map
          fun (members, rest) => (.object members.reverse, rest)
    | c :: rest =>
      if c = '-' ∨ c.isDigit then readNumber (c :: rest) else .error .malformed

/-- How many containers may be open at once. -/
def maxDepth : Nat := 127

/-- Reads a whole text; nothing but blanks may follow the value. -/
def Reader.run {α : Type} (reader : Reader α) (depth : Nat) (text : String) : Except Fault α :=
  match reader depth text.toList with
  | .error fault => .error fault
  | .ok (value, rest) => if (skipBlanks rest).isEmpty then .ok value else .error .malformed

end CallerFirst.Json
