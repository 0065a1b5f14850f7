import CallerFirst.Log

/-!
# What a session asks of its surroundings

A session reads and writes files and keeps a log. `Host` lists these operations in any monad, so
that a session runs on a real disk as well as on a `FileTree`.
-/

namespace CallerFirst

/-- The operations on files and on the log. Paths are relative to a working directory. -/
structure Host (m : Type → Type) where
  /-- The content of a file, if it can be read. -/
  read : (path : String) → m (Option String)
  /-- Writes a file; says whether it could be written. -/
  write : (path content : String) → m Bool
  /-- Makes a directory and those on the way to it; says whether they are there afterwards. -/
  makeDirectory : (path : String) → m Bool
  log : LogRecord → m Unit

/-- The path of a file in a directory. A path from the root stays as it is. -/
def joinPath (directory file : String) : String :=
  if file.startsWith "/" || directory.isEmpty then file
  else if directory.endsWith "/" then directory ++ file
  else directory ++ "/" ++ file

end CallerFirst
