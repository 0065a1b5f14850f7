import CallerFirst.Drawing.Dot
import CallerFirst.Dump
import CallerFirst.Report.Basic
import CallerFirst.Session.Host
import CallerFirst.Settings.Reader

/-!
# Sessions

A session reads settings and a dump from files, analyses the program and writes the drawings. It
runs on any `Host`.

Main definitions: `Session.readSettings`, `Session.readProgram`, `Session.draw`, `Session.run`.
-/

namespace CallerFirst

/-- Why a session fails. -/
inductive SessionError
  | settingsUnread (path : String)
  | settingsFaulty (path : String)
  | directoryUnmade (path : String)
  | dumpUnread (path : String)
  | dumpFaulty (path : String) (error : DumpError)
  | analysisFailed (error : AnalysisError)
  | drawingUnwritten (path : String)
  | reportUnwritten (path : String)
  deriving DecidableEq, Repr

namespace SessionError

/-- The text of an error. -/
def message : SessionError → String
  | .settingsUnread path => "Cannot read config " ++ path
  | .settingsFaulty path => "Failed to parse config " ++ path
  | .directoryUnmade path => "Cannot create graph directory " ++ path
  | .dumpUnread path => "Failed to read program dump " ++ path
  | .dumpFaulty path _ => "Failed to load program from " ++ path
  | .analysisFailed .oversized => "capacity overflow"
  | .analysisFailed (.cycle error) => error.message
  | .drawingUnwritten path => "Failed to write " ++ path
  | .reportUnwritten path => "Cannot write report " ++ path

end SessionError

namespace Session

variable {m : Type → Type} [Monad m]

/-- Reads settings from a file. -/
def readSettings (host : Host m) (path : String) : ExceptT SessionError m Settings := do
  match ← host.read path with
  | none => throw (.settingsUnread path)
  | some text =>
    match Settings.parse? text with
    | none => throw (.settingsFaulty path)
    | some settings => return settings

/-- Reads a program from a file. -/
def readProgram (host : Host m) (path : String) : ExceptT SessionError m Program := do
  match ← host.read path with
  | none => throw (.dumpUnread path)
  | some text =>
    match Program.parse text with
    | .error error => throw (.dumpFaulty path error)
    | .ok p => return p

/-- The drawings of an analysis, each with the end of its file name. -/
def drawings (settings : RenderSettings) (a : Analysis) : List (Drawing × String) :=
  [(if settings.methods then a.callDrawing else a.callDrawing.withoutMethods, "_fns.dot"),
    (a.classDrawing, "_cls.dot")]

/-- Writes a drawing into a directory unless it is empty. -/
def draw (host : Host m) (settings : RenderSettings) (directory : String) (d : Drawing)
    (suffix : String) : ExceptT SessionError m Unit := do
  let path := joinPath directory (settings.basename ++ suffix)
  match d.file? with
  | none => host.log ⟨.debug, d.title ++ " graph is empty, nothing written"⟩
  | some text =>
    if ← host.write path text then host.log ⟨.info, "wrote " ++ path⟩
    else throw (.drawingUnwritten path)

/-- Reads a program, analyses it and, if a directory is given, writes its drawings there. -/
def run (host : Host m) (settings : Settings) (input : String) (directory : Option String) :
    ExceptT SessionError m Analysis := do
  let p ← readProgram host input
  let analyzed := analyze settings p
  for r in analyzed.log do
    host.log r
  match analyzed.outcome with
  | .error error => throw (.analysisFailed error)
  | .ok analysis =>
    if let some directory := directory then
      for (d, suffix) in drawings settings.render analysis do
        draw host settings.render directory d suffix
    return analysis

end Session

end CallerFirst
