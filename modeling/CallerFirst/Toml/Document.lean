import CallerFirst.Toml.Numbers
import CallerFirst.Toml.Strings

/-!
# TOML documents

A document is built line by line. While it is built, a table remembers how it came to be, since this
decides whether it may be extended: `Toml.Origin`.

Main definitions: `Toml.Item.assign?` (a key and its value), `Toml.Item.openTable?` and
`Toml.Item.openElement?` (the headers of tables), `Toml.parse?` (a whole text).
-/

namespace CallerFirst.Toml

/-- How a table came to be. -/
inductive Origin
  /-- It has a header of its own. -/
  | declared
  /-- It lies on the way to another header. -/
  | implied
  /-- It lies on the way of a dotted key. -/
  | dotted
  deriving DecidableEq, Repr

/-- A part of a document that is being built. -/
inductive Item
  /-- A value, which cannot be extended. -/
  | value (value : Toml)
  | table (origin : Origin) (members : List (String × Item))
  /-- An array of tables, the latest first. -/
  | tables (latest : List (String × Item)) (earlier : List (List (String × Item)))

/-- The members of a table that is being built. -/
abbrev Members := List (String × Item)

namespace Item

/-- The item under a key. -/
def find? (key : String) (members : Members) : Option Item :=
  (members.find? (·.1 == key)).map (·.2)

/-- Replaces the item under a key, or adds it at the end. -/
def put (key : String) (item : Item) : Members → Members
  | [] => [(key, item)]
  | (k, old) :: rest => if k = key then (k, item) :: rest else (k, old) :: put key item rest

/-- Edits the table under a path. Tables on the way that are missing come to be as `origin`; with
`dotted` the ones that are declared are closed. -/
def descend? (origin : Origin) (edit : Origin → Members → Option Members) :
    (path : List String) → (here : Origin) → Members → Option Members
  | [], here, members => edit here members
  | key :: path, _, members =>
    match find? key members with
    | none => (descend? origin edit path origin []).map fun inner =>
        put key (.table origin inner) members
    | some (.value _) => none
    | some (.table found inner) =>
      if origin = .dotted ∧ found = .declared then none
      else (descend? origin edit path found inner).map fun inner =>
        put key (.table found inner) members
    | some (.tables latest earlier) =>
      (descend? origin edit path .declared latest).map fun inner =>
        put key (.tables inner earlier) members

/-- Sets a key of a table that has no such key. Dotted keys only add to tables made by dotted
keys. -/
def set? (isDotted : Bool) (key : String) (value : Toml) (here : Origin) (members : Members) :
    Option Members :=
  if isDotted != (here == .dotted) then none
  else if (find? key members).isSome then none
  else some (members ++ [(key, .value value)])

/-- Sets a key, which may be dotted, in a declared table. -/
def assign? (key : List String) (value : Toml) (members : Members) : Option Members :=
  match key.getLast? with
  | none => none
  | some last =>
    let path := key.dropLast
    descend? .dotted (set? (!path.isEmpty) last value) path .declared members

/-- Declares a table that is new or only implied. -/
def declare? (key : String) (members : Members) : Option Members :=
  match find? key members with
  | none => some (members ++ [(key, .table .declared [])])
  | some (.table .implied inner) => some (put key (.table .declared inner) members)
  | some _ => none

/-- Adds an element to an array of tables. -/
def append? (key : String) (members : Members) : Option Members :=
  match find? key members with
  | none => some (members ++ [(key, .tables [] [])])
  | some (.tables latest earlier) => some (put key (.tables [] (latest :: earlier)) members)
  | some _ => none

/-- Opens the table of a header. -/
def openTable? (path : List String) (members : Members) : Option Members :=
  path.getLast?.bind fun last =>
    descend? .implied (fun _ => declare? last) path.dropLast .declared members

/-- Opens a new element of the array of tables of a header. -/
def openElement? (path : List String) (members : Members) : Option Members :=
  path.getLast?.bind fun last =>
    descend? .implied (fun _ => append? last) path.dropLast .declared members

mutual

/-- The value that an item has become. -/
def toToml : Item → Toml
  | .value v => v
  | .table _ members => .table (membersToToml members)
  | .tables latest earlier =>
    .array ((Toml.table (membersToToml latest) :: elementsToToml earlier).reverse)

/-- The members of a table as values. -/
def membersToToml : List (String × Item) → List (String × Toml)
  | [] => []
  | (key, item) :: rest => (key, item.toToml) :: membersToToml rest

/-- The elements of an array of tables as values. -/
def elementsToToml : List (List (String × Item)) → List Toml
  | [] => []
  | members :: rest => .table (membersToToml members) :: elementsToToml rest

end

end Item

/-! ### Values -/

/-- Reads the elements of an array after its opening bracket; a comma may follow the last. -/
def readElements (value : List Char → Outcome Toml) :
    (bound : List Char) → (done : List Toml) → List Char → Outcome (List Toml)
  | [], _, _ => none
  | _ :: bound, done, cs =>
    match skipSpace cs with
    | ']' :: rest => some (done.reverse, rest)
    | cs =>
      match value cs with
      | none => none
      | some (item, rest) =>
        match skipSpace rest with
        | ',' :: rest => readElements value bound (item :: done) rest
        | ']' :: rest => some ((item :: done).reverse, rest)
        | _ => none

/-- Reads a key, the equals sign and a value. -/
def readPair (value : List Char → Outcome Toml) (cs : List Char) : Outcome (List String × Toml) :=
  match readKey cs with
  | some (key, '=' :: rest) => (value (skipBlanks rest)).map fun (v, rest) => ((key, v), rest)
  | _ => none

/-- Reads the members of an inline table up to its closing bracket; at least one follows. -/
def readInline (value : List Char → Outcome Toml) :
    (bound : List Char) → Members → List Char → Outcome Members
  | [], _, _ => none
  | _ :: bound, members, cs =>
    match readPair value cs with
    | none => none
    | some ((key, v), rest) =>
      match Item.assign? key v members with
      | none => none
      | some members =>
        match skipBlanks rest with
        | ',' :: rest => readInline value bound members rest
        | '\x7d' :: rest => some (members, rest)
        | _ => none

/-- Reads a value with at most so many arrays and inline tables within each other. -/
def readValue : (depth : Nat) → List Char → Outcome Toml
  | depth, cs =>
    match cs with
    | [] => none
    | '[' :: rest =>
      match depth with
      | 0 => none
      | depth + 1 =>
        (readElements (readValue depth) rest [] rest).map
          fun (items, rest) => (.array items, rest)
    | '\x7b' :: rest =>
      match depth with
      | 0 => none
      | depth + 1 =>
        match skipBlanks rest with
        | '\x7d' :: rest => some (.table [], rest)
        | rest =>
          (readInline (readValue depth) rest [] rest).map
            fun (members, rest) => (.table (Item.membersToToml members), rest)
    | 't' :: 'r' :: 'u' :: 'e' :: rest => some (.boolean true, rest)
    | 'f' :: 'a' :: 'l' :: 's' :: 'e' :: rest => some (.boolean false, rest)
    | c :: rest =>
      if c = '"' ∨ c = '\'' then
        (readString (c :: rest)).map fun (s, rest) => (.string s, rest)
      else readNumber (c :: rest)

/-- How many arrays and inline tables may be open at once. -/
def maxDepth : Nat := 79

/-! ### Lines -/

/-- A document of which some lines have been read. -/
structure Draft where
  /-- The tables so far. -/
  members : Members := []
  /-- The table that the next keys belong to. -/
  path : List String := []

/-- Sets a key in the table that is open. -/
def Draft.assign? (d : Draft) (key : List String) (value : Toml) : Option Draft :=
  (Item.descend? .implied (fun _ => Item.assign? key value) d.path .declared d.members).map
    fun members => { d with members }

/-- Reads a header after its opening bracket. -/
def Draft.readHeader (d : Draft) (cs : List Char) : Outcome Draft :=
  match cs with
  | '[' :: rest =>
    match readKey rest with
    | some (path, ']' :: ']' :: rest) =>
      (Item.openElement? path d.members).map fun members => (⟨members, path⟩, rest)
    | _ => none
  | _ =>
    match readKey cs with
    | some (path, ']' :: rest) =>
      (Item.openTable? path d.members).map fun members => (⟨members, path⟩, rest)
    | _ => none

/-- Reads what stands on a line that is not empty. -/
def Draft.readLine (d : Draft) (cs : List Char) : Outcome Draft :=
  match cs with
  | '[' :: rest => d.readHeader rest
  | _ =>
    match readPair (readValue maxDepth) cs with
    | some ((key, value), rest) => (d.assign? key value).map fun d => (d, rest)
    | none => none

/-- Reads lines to the end of the text. Each takes a character, so that the text bounds their
number. -/
def Draft.readLines : (bound : List Char) → Draft → List Char → Option Draft
  | [], d, _ => some d
  | _ :: bound, d, cs =>
    match skipSpace cs with
    | [] => some d
    | cs =>
      match d.readLine cs with
      | none => none
      | some (d, rest) => (endLine? rest).bind (readLines bound d)

/-- The table of a document; a byte order mark at its start is skipped. -/
def parse? (text : String) : Option Toml :=
  let cs :=
    match text.toList with
    | '\uFEFF' :: rest => rest
    | cs => cs
  (Draft.readLines cs {} cs).map fun d => .table (Item.membersToToml d.members)

end CallerFirst.Toml
