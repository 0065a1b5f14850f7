import CallerFirst.Decimal.Digits
import CallerFirst.Report.Json
import CallerFirst.Session.Basic

/-!
# The command line

`Options.parse?` reads the arguments and `execute` does what they ask for: settings, the directory
of the drawings, the analysis and the report, in this order.

An option with a value is written `--name value`, `--name=value`, `-n value`, `-nvalue` or
`-n=value`. Each option is given at most once. A value that follows its option does not start with a
hyphen, unless it is the hyphen alone. After `--` nothing may follow.
-/

namespace CallerFirst

/-- The form of a report. -/
inductive ReportFormat
  | json
  | text
  deriving DecidableEq, Repr

/-- What the arguments ask for, as far as they are read. -/
structure Options where
  input : Option String := none
  config : Option String := none
  output : Option String := none
  format : Option ReportFormat := none
  graphs : Option String := none
  workers : Option Nat := none
  nested : Bool := false
  deriving DecidableEq, Repr

namespace Options

/-- The options that take a value. -/
inductive Key
  | input
  | config
  | output
  | format
  | graphs
  | workers
  deriving DecidableEq, Repr

/-- The option of a long name. -/
def Key.ofLong? (name : String) : Option Key :=
  [("input", Key.input), ("config", .config), ("output", .output), ("format", .format),
    ("graphs", .graphs), ("workers", .workers)].lookup name

/-- The option of a letter. -/
def Key.ofLetter? (letter : Char) : Option Key :=
  [('i', Key.input), ('c', .config), ('o', .output), ('f', .format)].lookup letter

/-- A path is not empty. -/
def path? (text : String) : Option String := if text.isEmpty then none else some text

/-- A form of report, by its name. -/
def format? (text : String) : Option ReportFormat :=
  [("json", ReportFormat.json), ("text", .text)].lookup text

/-- A number of at most 64 bits in decimal digits, with or without a plus sign. -/
def count? (text : String) : Option Nat :=
  let digits :=
    match text.toList with
    | '+' :: rest => rest
    | cs => cs
  let n := numberOf digits
  if !digits.isEmpty && digits.all Char.isDigit && n < Nat.pow 2 64 then some n else none

/-- Sets an option that is not set yet. -/
def setOnce? {α : Type} (old : Option α) (new : Option α) : Option (Option α) :=
  if old.isSome then none else new.map some

/-- Gives an option its value. -/
def set? (o : Options) (key : Key) (value : String) : Option Options :=
  match key with
  | .input => (setOnce? o.input (path? value)).map fun input => { o with input }
  | .config => (setOnce? o.config (path? value)).map fun config => { o with config }
  | .output => (setOnce? o.output (path? value)).map fun output => { o with output }
  | .format => (setOnce? o.format (format? value)).map fun format => { o with format }
  | .graphs => (setOnce? o.graphs (path? value)).map fun graphs => { o with graphs }
  | .workers => (setOnce? o.workers (count? value)).map fun workers => { o with workers }

/-- Whether an argument is taken for an option. -/
def isOptionLike (argument : String) : Bool := argument.startsWith "-" && argument ≠ "-"

/-- What an argument says by itself. -/
inductive Token
  /-- An option, with its value if that is attached. -/
  | option (key : Key) (value : Option String)
  | nested
  /-- The end of the options. -/
  | stop
  | refused

/-- Splits a text at its first equals sign. -/
def splitEquals (cs : List Char) : String × Option String :=
  let name := String.ofList (cs.takeWhile (· ≠ '='))
  match cs.dropWhile (· ≠ '=') with
  | [] => (name, none)
  | _ :: value => (name, some (String.ofList value))

/-- Reads one argument. -/
def Token.ofText (argument : String) : Token :=
  match argument.toList with
  | ['-', '-'] => .stop
  | '-' :: '-' :: rest =>
    let (name, value) := splitEquals rest
    if name = "nested" ∧ value = none then .nested
    else
      match Key.ofLong? name with
      | some key => .option key value
      | none => .refused
  | '-' :: letter :: rest =>
    match Key.ofLetter? letter, rest with
    | none, _ => .refused
    | some key, [] => .option key none
    | some key, '=' :: value => .option key (some (String.ofList value))
    | some key, value => .option key (some (String.ofList value))
  | _ => .refused

/-- Reads arguments into options. -/
def read? : Options → List String → Option Options
  | o, [] => some o
  | o, argument :: rest =>
    match Token.ofText argument, rest with
    | .refused, _ => none
    | .stop, rest => if rest.isEmpty then some o else none
    | .nested, rest => if o.nested then none else read? { o with nested := true } rest
    | .option key (some value), rest => (o.set? key value).bind (read? · rest)
    | .option _ none, [] => none
    | .option key none, value :: rest =>
      if isOptionLike value then none else (o.set? key value).bind (read? · rest)

/-- The options that arguments ask for. -/
def parse? (arguments : List String) : Option Options := read? {} arguments

end Options

/-! ### Execution -/

/-- How a run ends. -/
structure Ending where
  exitCode : Nat
  output : String
  error : Option SessionError

namespace Ending

/-- The arguments are wrong. -/
def wrongArguments : Ending := ⟨2, "", none⟩

/-- The exit code of a failure: one of its own when an arity cannot be represented. -/
def exitCodeOf : SessionError → Nat
  | .analysisFailed .oversized => 101
  | _ => 1

/-- The message of a failure that is reported as one. -/
def message? (e : Ending) : Option String :=
  if e.exitCode = 1 then e.error.map (·.message) else none

end Ending

/-- A report in a form. -/
def Report.render (r : Report) : ReportFormat → String
  | .json => r.toJson.write Json.indented
  | .text => r.text

section
variable {m : Type → Type} [Monad m]

/-- The settings that options ask for: those of the file, changed by the options. -/
def Options.settings (host : Host m) (o : Options) : ExceptT SessionError m Settings := do
  let settings ← match o.config with
    | some path => Session.readSettings host path
    | none => pure {}
  return { settings with
    workers := o.workers.or settings.workers
    nestedCalls := settings.nestedCalls || o.nested }

/-- Does what options ask for and gives what goes to the standard output. -/
def Options.execute (host : Host m) (o : Options) (input : String) :
    ExceptT SessionError m String := do
  let settings ← o.settings host
  if let some directory := o.graphs then
    unless ← host.makeDirectory directory do throw (.directoryUnmade directory)
  let analysis ← Session.run host settings input o.graphs
  let text := analysis.report.render (o.format.getD .text)
  match o.output with
  | none => return text
  | some path =>
    unless ← host.write path text do throw (.reportUnwritten path)
    host.log ⟨.info, "Analysis completed! Report written to " ++ path⟩
    return ""

/-- Runs the program with arguments. -/
def execute (host : Host m) (arguments : List String) : m Ending := do
  match (Options.parse? arguments).bind fun o => o.input.map (o, ·) with
  | none => return .wrongArguments
  | some (o, input) =>
    match ← (o.execute host input).run with
    | .ok output => return ⟨0, output, none⟩
    | .error error => return ⟨Ending.exitCodeOf error, "", some error⟩

end

end CallerFirst
