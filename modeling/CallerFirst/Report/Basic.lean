import CallerFirst.Analysis
import CallerFirst.Drawing.Basic

/-!
# Reports

A report is what an analysis hands on: the order of the tests, both graphs as lists of nodes and
edges, and the methods called on classes. `Report.text` is its form for a reader.
-/

namespace CallerFirst

/-- A node in a report. -/
structure ReportNode where
  id : String
  label : String
  kind : String
  deriving DecidableEq, Repr

/-- An edge in a report. -/
structure ReportEdge where
  source : String
  target : String
  kind : String
  deriving DecidableEq, Repr

/-- A graph in a report. -/
structure ReportGraph where
  nodes : List ReportNode
  edges : List ReportEdge
  deriving DecidableEq, Repr

/-- The result of an analysis as it is handed on. -/
structure Report where
  totalFunctions : Nat
  isolated : List String
  ordered : List String
  callGraph : ReportGraph
  /-- Function, class, methods called. -/
  classMethods : SortedMap String (SortedMap String (List String))
  classUsage : ReportGraph
  deriving DecidableEq

/-- The word for a kind of node. -/
def NodeKind.word : NodeKind → String
  | .function => "function"
  | .method => "method"
  | .classNode => "class"

/-- The nodes and edges of a drawing; all edges are of one kind. -/
def ReportGraph.ofDrawing (d : Drawing) (edgeKind : String) : ReportGraph where
  nodes := d.nodes.map fun n => ⟨n.id, n.label, n.kind.word⟩
  edges := d.edges.map fun e => ⟨e.source, e.target, edgeKind⟩

namespace Analysis

/-- The drawing of the call graph. -/
def callDrawing (a : Analysis) : Drawing := .ofCallGraph "function dependency" a.callGraph

/-- The drawing of the use of classes. -/
def classDrawing (a : Analysis) : Drawing := .ofClassUse "class dependency" a.classUse

/-- The report on an analysis. -/
def report (a : Analysis) : Report where
  totalFunctions := a.totalFunctions
  isolated := a.order.isolated
  ordered := a.order.ordered
  callGraph := .ofDrawing a.callDrawing "call"
  classMethods := a.classMethods.entries.mapValues (·.mapValues (·.toList))
  classUsage := .ofDrawing a.classDrawing "uses"

end Analysis

namespace Report

/-- A number set to the right in three columns. -/
def column (n : Nat) : String :=
  let digits := Nat.toDigits 10 n
  String.ofList (List.replicate (3 - digits.length) ' ' ++ digits)

/-- The numbered lines of the order. -/
def orderLines (first : Nat) : List String → List String
  | [] => []
  | id :: rest => ("  " ++ column first ++ ". " ++ id) :: orderLines (first + 1) rest

/-- The line of the methods that a function calls on a class. -/
def methodLine (function owner : String) (methods : List String) : String :=
  "  " ++ function ++ " -> " ++ owner ++ ".\x7b" ++ ", ".intercalate methods ++ "\x7d"

/-- The lines of a report. -/
def lines (r : Report) : List String :=
  [totalLine r.totalFunctions,
    "Test order (" ++ toString r.ordered.length ++ " functions):"]
  ++ orderLines 1 r.ordered
  ++ ["Isolated (" ++ toString r.isolated.length ++ " functions):"]
  ++ r.isolated.map ("       " ++ ·)
  ++ if r.classMethods.isEmpty then []
    else "Class methods invoked:"
      :: r.classMethods.entries.flatMap fun (function, classes) =>
        classes.entries.map fun (owner, methods) => methodLine function owner methods

/-- A report as text; every line ends with a line break. -/
def text (r : Report) : String := String.join (r.lines.map (· ++ "\n"))

end Report

end CallerFirst
