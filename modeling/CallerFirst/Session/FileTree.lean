import CallerFirst.Collection.SortedMap
import CallerFirst.Session.Host

/-!
# Trees of files

A `FileTree` holds the files and directories of a working directory and of its surroundings. A path
is followed step by step, as a file system does it: each name but the last must be that of a
directory. The working directory lies in one for temporary files, and beside it only a few devices
are there at first.

Main definitions: `FileTree.follow`, `FileTree.read?`, `FileTree.write?`, `FileTree.makeDirectory`,
and the session `FileTree.host` on a tree.
-/

namespace CallerFirst

/-- What takes text and keeps none. -/
inductive Device
  /-- Drops what it is given. -/
  | null
  /-- Prints what it is given. -/
  | output
  /-- Takes nothing. -/
  | full
  deriving DecidableEq, Repr

/-- A file with its content, a directory or a device. -/
inductive TreeEntry
  | file (content : String)
  | directory
  | device (kind : Device)
  deriving DecidableEq, Repr

/-- Where a path starts. -/
inductive Base
  | root
  | workingDirectory
  deriving DecidableEq, Repr

/-- A place in a tree: the names that lead to it from its base, the last first. -/
structure Place where
  base : Base
  names : List String
  deriving DecidableEq, Repr

namespace Place

/-- The path of a place, from the root unless it lies below the working directory. -/
def path (p : Place) : String :=
  let relative := "/".intercalate p.names.reverse
  match p.base with
  | .root => "/" ++ relative
  | .workingDirectory => relative

/-- The place of a name in a directory. -/
def down (p : Place) (name : String) : Place := ⟨p.base, name :: p.names⟩

/-- The directory of a place. The root is its own. -/
def up : Place → Place
  | ⟨.root, []⟩ => ⟨.root, []⟩
  | ⟨.workingDirectory, []⟩ => ⟨.root, ["tmp"]⟩
  | ⟨base, _ :: names⟩ => ⟨base, names⟩

end Place

/-- What is at the places of a tree, by their paths, and what its devices have printed. -/
structure FileTree where
  entries : SortedMap String TreeEntry
  printed : String

namespace FileTree

/-- What is at a place. The root and the working directory are always there. -/
def entry? (t : FileTree) (p : Place) : Option TreeEntry :=
  if p.names.isEmpty then some .directory else t.entries.get? p.path

/-- Whether a directory is at a place. -/
def isDirectory (t : FileTree) (p : Place) : Bool := t.entry? p = some .directory

/-- Puts something at a place. -/
def put (t : FileTree) (p : Place) (entry : TreeEntry) : FileTree :=
  { t with entries := t.entries.insert p.path entry }

/-- An empty working directory and its surroundings. -/
def empty : FileTree where
  entries := .ofList [("/tmp", .directory), ("/dev", .directory), ("/dev/null", .device .null),
    ("/dev/stdin", .device .null), ("/dev/stdout", .device .output),
    ("/dev/stderr", .device .null), ("/dev/full", .device .full)]
  printed := ""

/-- The longest name of a file, in bytes. -/
def maxNameLength : Nat := 255

/-- The longest path, in bytes. -/
def maxPathLength : Nat := 4095

/-- Whether a text is short enough to be the name of a file. -/
def isName (name : String) : Bool := name.utf8ByteSize ≤ maxNameLength

/-- Whether a text can be a path. -/
def isPath (path : String) : Bool :=
  path.utf8ByteSize ≤ maxPathLength && !path.toList.contains '\x00'

/-- Where a path starts, and its names. -/
def route? (path : String) : Option (Place × List String) :=
  if isPath path then
    some (⟨if path.startsWith "/" then .root else .workingDirectory, []⟩, path.splitOn "/")
  else none

/-- Whether a name in a path leads nowhere else. -/
def isIdle (name : String) : Bool := name = "" || name = "."

/-- Follows names from a place; every place on the way must be a directory. -/
def follow (t : FileTree) : (p : Place) → (names : List String) → Option Place
  | p, [] => some p
  | p, name :: rest =>
    if !t.isDirectory p then none
    else if isIdle name then follow t p rest
    else if name = ".." then follow t p.up rest
    else if isName name then follow t (p.down name) rest
    else none

/-- The place of a path. -/
def place? (t : FileTree) (path : String) : Option Place :=
  (route? path).bind fun (start, names) => t.follow start names

/-- The content of a file; a device that takes text has none. -/
def read? (t : FileTree) (path : String) : Option String :=
  match (t.place? path).bind t.entry? with
  | some (.file content) => some content
  | some (.device .full) => none
  | some (.device _) => some ""
  | some .directory => none
  | none => none

/-- Gives text to a device. -/
def send? (t : FileTree) (device : Device) (text : String) : Option FileTree :=
  match device with
  | .null => some t
  | .output => some { t with printed := t.printed ++ text }
  | .full => none

/-- Writes a file, if its directory is there and the path is not that of a directory. -/
def write? (t : FileTree) (path content : String) : Option FileTree :=
  (t.place? path).bind fun p =>
    match t.entry? p with
    | some .directory => none
    | some (.device device) => t.send? device content
    | _ => some (t.put p (.file content))

/-- Makes the directories that names lead to; gives the tree, with those made before a failure, and
whether all could be made. -/
def makeAlong (t : FileTree) : (p : Place) → (names : List String) → FileTree × Bool
  | _, [] => (t, true)
  | p, name :: rest =>
    if isIdle name then makeAlong t p rest
    else if name = ".." then makeAlong t p.up rest
    else if !isName name then (t, false)
    else
      match t.entry? (p.down name) with
      | some .directory => makeAlong t (p.down name) rest
      | some _ => (t, false)
      | none => makeAlong (t.put (p.down name) .directory) (p.down name) rest

/-- Whether the last name of a path is a point. -/
def endsInPoint (names : List String) : Bool := (names.filter (· ≠ "")).getLast? = some "."

/-- Makes a directory and those on the way to it. A path that ends in a point speaks of a directory
that is there already, so that only those on the way to it are made. -/
def makeDirectory (t : FileTree) (path : String) : FileTree × Bool :=
  match route? path with
  | none => (t, false)
  | some (start, names) =>
    if endsInPoint names then
      let (t, made) := t.makeAlong start (names.filter (!isIdle ·)).dropLast
      (t, made && (t.follow start names).any t.isDirectory)
    else t.makeAlong start names

/-- Puts a file into the tree and makes the directories on the way to it. -/
def withFile (t : FileTree) (path content : String) : FileTree :=
  match route? path with
  | none => t
  | some (start, names) =>
    let t := (t.makeAlong start names.dropLast).1
    (t.write? path content).getD t

/-- The tree of a list of files. -/
def ofFiles (files : List (String × String)) : FileTree :=
  files.foldl (fun t f => t.withFile f.1 f.2) empty

/-- What is in the working directory beside the given files: the files that differ from them, with
their content, and the directories. -/
def changes (t : FileTree) (files : List (String × String)) : List (String × Option String) :=
  (t.entries.entries.filter fun e => !e.1.startsWith "/").filterMap fun (path, entry) =>
    match entry with
    | .file content => if files.lookup path = some content then none else some (path, some content)
    | .directory => some (path ++ "/", none)
    | .device _ => none

/-- A session on a tree; the log is dropped. -/
def host : Host (StateM FileTree) where
  read path := do return (← get).read? path
  write path content := do
    match (← get).write? path content with
    | some t => set t; return true
    | none => return false
  makeDirectory path := do
    let (t, made) := (← get).makeDirectory path
    set t
    return made
  log _ := pure ()

end FileTree

end CallerFirst
