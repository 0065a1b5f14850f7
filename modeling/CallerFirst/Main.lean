import CallerFirst.CommandLine

/-!
# The program

Runs the command line on the disk. The log goes to the standard error output, without its details.
-/

namespace CallerFirst

/-- Whether an action succeeds. -/
def succeeds (action : IO Unit) : IO Bool := do
  try
    action
    return true
  catch _ => return false

/-- A session on the disk. -/
def diskHost : Host IO where
  read path := do
    try return some (← IO.FS.readFile path)
    catch _ => return none
  write path content := succeeds (IO.FS.writeFile path content)
  makeDirectory path := succeeds (IO.FS.createDirAll path)
  log r := if r.level = .info then IO.eprintln r.display else pure ()

/-- The options, for someone who gave wrong ones. -/
def usage : String :=
  "Usage: --input <INPUT> [--config <CONFIG>] [--output <OUTPUT>] [--format <json|text>]\n"
    ++ "       [--graphs <GRAPHS>] [--workers <WORKERS>] [--nested]"

end CallerFirst

open CallerFirst in
def main (arguments : List String) : IO UInt32 := do
  let ending ← execute diskHost arguments
  IO.print ending.output
  if ending.exitCode = 2 then
    IO.eprintln usage
  if let some error := ending.error then
    IO.eprintln ("Error: " ++ error.message)
  return ending.exitCode.toUInt32
